import AuruPm.Lib.Json
import AuruPm.Lib.CodeUnits

/-!
# The grammar of JSON

The texts that spell a value, over units and with the spellings of numbers and of quoted texts as
parameters.
-/

set_option autoImplicit false

namespace JsonValue

open CodeUnits

variable {T D T₁ D₁ : Type}

/-- The units of an ASCII text. -/
def ascii (s : String) : List Nat := s.toList.map Char.toNat

def isSpace (u : Nat) : Bool := u = 0x20 || u = 0x09 || u = 0x0A || u = 0x0D

def isDigit (u : Nat) : Bool := '0'.toNat ≤ u && u ≤ '9'.toNat

/-- What a parser takes for part of a number. -/
def isNumberUnit (u : Nat) : Bool :=
  isDigit u || u = '.'.toNat || u = 'e'.toNat || u = 'E'.toNat || u = '+'.toNat || u = '-'.toNat

/-! The grammar. -/

/-- The spellings of numbers, and of texts between their quotes. -/
structure Tokens (T D : Type) where
  int : List Nat → Int64 → Prop
  dec : List Nat → D → Prop
  text : List Nat → T → Prop

/-- With whitespace on both sides. -/
def Spaced (P : List Nat → Prop) (l : List Nat) : Prop :=
  ∃ before core after, l = before ++ (core ++ after) ∧ before.all isSpace ∧ after.all isSpace ∧ P core

section Grammar
variable (S : Tokens T D)

def Quoted (text : T) (l : List Nat) : Prop :=
  ∃ body, l = '"'.toNat :: (body ++ ['"'.toNat]) ∧ S.text body text

mutual
def Spells : JsonValue T D → List Nat → Prop
  | .null, l => l = ascii "null"
  | .bool flag, l => l = ascii (if flag then "true" else "false")
  | .int number, l => S.int l number
  | .dec number, l => S.dec l number
  | .str text, l => Quoted S text l
  | .arr elements, l => ∃ body, l = '['.toNat :: (body ++ [']'.toNat]) ∧ SpellsElements elements body
  | .obj members, l => ∃ body, l = '\x7b'.toNat :: (body ++ ['\x7d'.toNat]) ∧ SpellsMembers members body
/-- With commas between the elements. -/
def SpellsElements : List (JsonValue T D) → List Nat → Prop
  | [], l => l.all isSpace
  | e :: es, l =>
    es = [] ∧ Spaced (Spells e) l ∨
      ∃ l₁ l₂, l = l₁ ++ ','.toNat :: l₂ ∧ es ≠ [] ∧ Spaced (Spells e) l₁ ∧ SpellsElements es l₂
def SpellsMembers : List (T × JsonValue T D) → List Nat → Prop
  | [], l => l.all isSpace
  | (name, v) :: ms, l =>
    ∃ l₁ l₂, Spaced (Quoted S name) l₁ ∧
      (ms = [] ∧ l = l₁ ++ ':'.toNat :: l₂ ∧ Spaced (Spells v) l₂ ∨
        ∃ l₃, l = l₁ ++ ':'.toNat :: (l₂ ++ ','.toNat :: l₃) ∧ ms ≠ [] ∧ Spaced (Spells v) l₂ ∧
          SpellsMembers ms l₃)
end

end Grammar

/-! Spellings under an encoding. -/

theorem all_isSpace_flatMap {expand : Nat → List Nat} (h : Transparent expand) {l : List Nat}
    (hl : l.all isSpace) : (l.flatMap expand).all isSpace := by
  have hascii : ∀ u ∈ l, u < 0x80 := by
    intro u hu
    have hspace := List.all_eq_true.mp hl u hu
    simp [isSpace] at hspace
    omega
  rwa [h.flatMap_eq_self hascii]

/-- Every token of `S` is one of `S₁` once its units are expanded, and both are seen as the same. -/
structure Lifts {T₂ D₂ : Type} (expand : Nat → List Nat) (p : T₁ → T₂) (q : D₁ → D₂) (f : T → T₂)
    (g : D → D₂) (S : Tokens T D) (S₁ : Tokens T₁ D₁) : Prop where
  int : ∀ l number, S.int l number → S₁.int (l.flatMap expand) number
  dec : ∀ l number, S.dec l number → ∃ number₁, q number₁ = g number ∧
    S₁.dec (l.flatMap expand) number₁
  text : ∀ body text, S.text body text → ∃ text₁, p text₁ = f text ∧
    S₁.text (body.flatMap expand) text₁

section Lift
variable {T₂ D₂ : Type} {expand : Nat → List Nat} {p : T₁ → T₂} {q : D₁ → D₂} {f : T → T₂}
  {g : D → D₂} {S : Tokens T D} {S₁ : Tokens T₁ D₁}

theorem Quoted.lift (h : Transparent expand) (hS : Lifts expand p q f g S S₁) {text : T}
    {l : List Nat} (hl : Quoted S text l) :
    ∃ text₁, p text₁ = f text ∧ Quoted S₁ text₁ (l.flatMap expand) := by
  obtain ⟨body, rfl, hbody⟩ := hl
  obtain ⟨text₁, heq, htext⟩ := hS.text body text hbody
  exact ⟨text₁, heq, _, by simp [h.ascii], htext⟩

theorem Spaced.lift (h : Transparent expand) {A : Type} {P : List Nat → Prop}
    {Q : A → List Nat → Prop} {R : A → Prop} (hPQ : ∀ l, P l → ∃ a, R a ∧ Q a (l.flatMap expand))
    {l : List Nat} (hl : Spaced P l) : ∃ a, R a ∧ Spaced (Q a) (l.flatMap expand) := by
  obtain ⟨before, core, after, rfl, hbefore, hafter, hcore⟩ := hl
  obtain ⟨a, ha, hQ⟩ := hPQ core hcore
  exact ⟨a, ha, _, _, _, by simp, all_isSpace_flatMap h hbefore, all_isSpace_flatMap h hafter, hQ⟩

/-- A spelling, in the units of another encoding and with the tokens of another grammar. -/
theorem Spells.lift (h : Transparent expand) (hS : Lifts expand p q f g S S₁) (v : JsonValue T D) :
    ∀ l, Spells S v l → ∃ v₁ : JsonValue T₁ D₁, v₁.map p q = v.map f g ∧
      Spells S₁ v₁ (l.flatMap expand) := by
  induction v using induction with
  | null =>
    intro l hl
    rw [Spells] at hl
    subst hl
    refine ⟨.null, rfl, ?_⟩
    rw [Spells]
    exact h.flatMap_eq_self (by decide)
  | bool flag =>
    intro l hl
    rw [Spells] at hl
    subst hl
    refine ⟨.bool flag, rfl, ?_⟩
    rw [Spells]
    exact h.flatMap_eq_self (by cases flag <;> decide)
  | int number =>
    intro l hl
    rw [Spells] at hl
    refine ⟨.int number, rfl, ?_⟩
    rw [Spells]
    exact hS.int l number hl
  | dec number =>
    intro l hl
    rw [Spells] at hl
    obtain ⟨number₁, heq, hdec⟩ := hS.dec l number hl
    refine ⟨.dec number₁, congrArg JsonValue.dec heq, ?_⟩
    rw [Spells]
    exact hdec
  | str text =>
    intro l hl
    rw [Spells] at hl
    obtain ⟨text₁, heq, htext⟩ := hl.lift h hS
    refine ⟨.str text₁, congrArg JsonValue.str heq, ?_⟩
    rw [Spells]
    exact htext
  | arr elements ih =>
    intro l hl
    rw [Spells] at hl
    obtain ⟨body, rfl, hbody⟩ := hl
    have helements : ∃ es₁ : List (JsonValue T₁ D₁),
        es₁.map (map p q) = elements.map (map f g) ∧
          SpellsElements S₁ es₁ (body.flatMap expand) := by
      clear * - h ih hbody
      induction elements generalizing body with
      | nil =>
        rw [SpellsElements] at hbody
        refine ⟨[], rfl, ?_⟩
        rw [SpellsElements]
        exact all_isSpace_flatMap h hbody
      | cons e es ihes =>
        rw [SpellsElements] at hbody
        have he := ih e List.mem_cons_self
        rcases hbody with ⟨rfl, hbody⟩ | ⟨l₁, l₂, rfl, hne, hl₁, hl₂⟩
        · obtain ⟨e₁, heq, hspells⟩ := hbody.lift h he
          refine ⟨[e₁], congrArg (fun v => [v]) heq, ?_⟩
          rw [SpellsElements]
          exact Or.inl ⟨rfl, hspells⟩
        · obtain ⟨e₁, heq, hspells⟩ := hl₁.lift h he
          obtain ⟨es₁, hes, hrest⟩ := ihes (fun e he => ih e (List.mem_cons_of_mem _ he)) _ hl₂
          refine ⟨e₁ :: es₁, by rw [List.map_cons, List.map_cons, heq, hes], ?_⟩
          rw [SpellsElements]
          refine Or.inr ⟨_, _, by simp [h.ascii], ?_, hspells, hrest⟩
          rintro rfl
          exact hne (List.map_eq_nil_iff.mp hes.symm)
    obtain ⟨es₁, hes, hspells⟩ := helements
    refine ⟨.arr es₁, by rw [map, map, mapElements_eq, mapElements_eq, hes], ?_⟩
    rw [Spells]
    exact ⟨_, by simp [h.ascii], hspells⟩
  | obj members ih =>
    intro l hl
    rw [Spells] at hl
    obtain ⟨body, rfl, hbody⟩ := hl
    have hmembers : ∃ ms₁ : List (T₁ × JsonValue T₁ D₁),
        (ms₁.map fun m => (p m.1, m.2.map p q)) = (members.map fun m => (f m.1, m.2.map f g)) ∧
          SpellsMembers S₁ ms₁ (body.flatMap expand) := by
      induction members generalizing body with
      | nil =>
        rw [SpellsMembers] at hbody
        refine ⟨[], rfl, ?_⟩
        rw [SpellsMembers]
        exact all_isSpace_flatMap h hbody
      | cons m ms ihms =>
        obtain ⟨name, v⟩ := m
        rw [SpellsMembers] at hbody
        obtain ⟨l₁, l₂, hname, hbody⟩ := hbody
        obtain ⟨name₁, hnameEq, hname₁⟩ := hname.lift h fun l hl => hl.lift h hS
        have hv := ih _ List.mem_cons_self
        rcases hbody with ⟨rfl, rfl, hl₂⟩ | ⟨l₃, rfl, hne, hl₂, hl₃⟩
        · obtain ⟨v₁, heq, hspells⟩ := hl₂.lift h hv
          refine ⟨[(name₁, v₁)], by simp [hnameEq, heq], ?_⟩
          rw [SpellsMembers]
          exact ⟨_, _, hname₁, Or.inl ⟨rfl, by simp [h.ascii], hspells⟩⟩
        · obtain ⟨v₁, heq, hspells⟩ := hl₂.lift h hv
          obtain ⟨ms₁, hms, hrest⟩ := ihms (fun m hm => ih m (List.mem_cons_of_mem _ hm)) _ hl₃
          refine ⟨(name₁, v₁) :: ms₁, by rw [List.map_cons, List.map_cons, hms, hnameEq, heq], ?_⟩
          rw [SpellsMembers]
          refine ⟨_, _, hname₁, Or.inr ⟨_, by simp [h.ascii], ?_, hspells, hrest⟩⟩
          rintro rfl
          exact hne (List.map_eq_nil_iff.mp hms.symm)
    obtain ⟨ms₁, hms, hspells⟩ := hmembers
    refine ⟨.obj ms₁, by rw [map, map, mapMembers_eq, mapMembers_eq, hms], ?_⟩
    rw [Spells]
    exact ⟨_, by simp [h.ascii], hspells⟩

end Lift

end JsonValue
