import AuruPm.Lib.JsonGrammar

/-!
# Parsing JSON

`parse` is a recursive descent parser over readers of numbers and of quoted texts. It reads a value
exactly from the texts that spell the value with the tokens that its readers take.
-/

set_option autoImplicit false

namespace JsonValue

variable {T D : Type}

/-! The parser. -/

/-- How a parser reads tokens, and how it keeps the members of an object. -/
structure Reader (T D : Type) where
  /-- The number that a literal stands for. -/
  number : List Nat → Option (JsonValue T D)
  /-- The text up to its closing quote. -/
  text : List Nat → Option (T × List Nat)
  collect : List (T × JsonValue T D) → List (T × JsonValue T D)

def skipWhitespace (s : List Nat) : List Nat := s.dropWhile isSpace

def parseLiteral (literal : String) (v : JsonValue T D) (s : List Nat) :
    Option (JsonValue T D × List Nat) :=
  if (ascii literal).isPrefixOf s then some (v, s.drop (ascii literal).length) else none

section Parser
variable (R : Reader T D)

def parseNumber (s : List Nat) : Option (JsonValue T D × List Nat) :=
  (R.number (s.takeWhile isNumberUnit)).map fun v => (v, s.dropWhile isNumberUnit)

/-- The name of a member and what follows its colon. -/
def parseName (s : List Nat) : Option (T × List Nat) :=
  match skipWhitespace s with
  | [] => none
  | u :: rest =>
    if u = '"'.toNat then
      (R.text rest).bind fun (name, rest) =>
        match skipWhitespace rest with
        | [] => none
        | u :: rest => if u = ':'.toNat then some (name, rest) else none
    else none

mutual
/-- The first argument bounds the nesting of calls. -/
def parseValue : Nat → List Nat → Option (JsonValue T D × List Nat)
  | 0, _ => none
  | fuel + 1, s =>
    match skipWhitespace s with
    | [] => none
    | u :: rest =>
      if u = '\x7b'.toNat then
        match skipWhitespace rest with
        | [] => none
        | u' :: rest' =>
          if u' = '\x7d'.toNat then some (.obj (R.collect []), rest')
          else (parseMembers fuel rest).map fun (members, rest) => (.obj (R.collect members), rest)
      else if u = '['.toNat then
        match skipWhitespace rest with
        | [] => none
        | u' :: rest' =>
          if u' = ']'.toNat then some (.arr [], rest')
          else (parseElements fuel rest).map fun (elements, rest) => (.arr elements, rest)
      else if u = '"'.toNat then (R.text rest).map fun (text, rest) => (.str text, rest)
      else if u = 't'.toNat then parseLiteral "true" (.bool true) (u :: rest)
      else if u = 'f'.toNat then parseLiteral "false" (.bool false) (u :: rest)
      else if u = 'n'.toNat then parseLiteral "null" .null (u :: rest)
      else parseNumber R (u :: rest)
def parseMembers : Nat → List Nat → Option (List (T × JsonValue T D) × List Nat)
  | 0, _ => none
  | fuel + 1, s =>
    (parseName R s).bind fun (name, rest) =>
      (parseValue fuel rest).bind fun (v, rest) =>
        match skipWhitespace rest with
        | [] => none
        | u :: rest =>
          if u = '\x7d'.toNat then some ([(name, v)], rest)
          else if u = ','.toNat then
            (parseMembers fuel rest).map fun (members, rest) => ((name, v) :: members, rest)
          else none
def parseElements : Nat → List Nat → Option (List (JsonValue T D) × List Nat)
  | 0, _ => none
  | fuel + 1, s =>
    (parseValue fuel s).bind fun (v, rest) =>
      match skipWhitespace rest with
      | [] => none
      | u :: rest =>
        if u = ']'.toNat then some ([v], rest)
        else if u = ','.toNat then
          (parseElements fuel rest).map fun (elements, rest) => (v :: elements, rest)
        else none
end

/-- The one value that a whole text spells. -/
def parse (s : List Nat) : Option (JsonValue T D) :=
  (parseValue R (2 * s.length + 1) s).bind fun (v, rest) =>
    if skipWhitespace rest = [] then some v else none

end Parser

/-! What the parser reads is what the grammar spells. -/

/-- The tokens that a reader takes. -/
def Reader.tokens (R : Reader T D) : Tokens T D where
  int l number := l.all isNumberUnit ∧ R.number l = some (.int number)
  dec l number := l.all isNumberUnit ∧ R.number l = some (.dec number)
  text body text := R.text (body ++ ['"'.toNat]) = some (text, [])

structure Reader.Lawful (R : Reader T D) : Prop where
  number_nil : R.number [] = none
  number_only : ∀ l v, R.number l = some v → (∃ n, v = .int n) ∨ ∃ d, v = .dec d
  text_iff : ∀ s text r, R.text s = some (text, r) ↔
    ∃ body, s = body ++ '"'.toNat :: r ∧ R.tokens.text body text

theorem skipWhitespace_append {l : List Nat} (h : l.all isSpace) (s : List Nat) :
    skipWhitespace (l ++ s) = skipWhitespace s := by
  induction l with
  | nil => rfl
  | cons u l ih =>
    simp only [List.all_cons, Bool.and_eq_true] at h
    simp only [skipWhitespace, List.cons_append, List.dropWhile_cons, h.1, if_true]
    exact ih h.2

theorem skipWhitespace_cons {u : Nat} (h : isSpace u = false) (s : List Nat) :
    skipWhitespace (u :: s) = u :: s := by
  simp [skipWhitespace, h]

theorem skipWhitespace_eq_self_or (s : List Nat) :
    ∃ l, l.all isSpace ∧ s = l ++ skipWhitespace s :=
  ⟨s.takeWhile isSpace, List.all_takeWhile, (List.takeWhile_append_dropWhile).symm⟩

theorem isNumberUnit_ne {u : Nat} (h : isNumberUnit u = true) :
    isSpace u = false ∧ u ≠ '\x7b'.toNat ∧ u ≠ '['.toNat ∧ u ≠ '"'.toNat ∧ u ≠ 't'.toNat ∧
      u ≠ 'f'.toNat ∧ u ≠ 'n'.toNat ∧ u ≠ ']'.toNat ∧ u ≠ '\x7d'.toNat := by
  simp [isNumberUnit, isDigit, isSpace] at h ⊢
  omega

/-- What may follow a number. -/
def Follows (r : List Nat) : Prop := ∀ u, r.head? = some u → isNumberUnit u = false

theorem follows_nil : Follows [] := by
  intro u h
  cases h

theorem follows_spaces {l r : List Nat} (h : l.all isSpace) (hr : Follows r) : Follows (l ++ r) := by
  cases l with
  | nil => exact hr
  | cons u l =>
    intro u' hu
    cases hu
    simp only [List.all_cons, Bool.and_eq_true] at h
    by_contra hnumber
    rw [(isNumberUnit_ne (by simpa using hnumber)).1] at h
    simp at h

section Exactness
variable {R : Reader T D}

theorem takeWhile_number {l r : List Nat} (h : l.all isNumberUnit) (hr : Follows r) :
    (l ++ r).takeWhile isNumberUnit = l ∧ (l ++ r).dropWhile isNumberUnit = r := by
  induction l with
  | nil =>
    cases r with
    | nil => exact ⟨rfl, rfl⟩
    | cons u r => simp [hr u rfl]
  | cons u l ih =>
    simp only [List.all_cons, Bool.and_eq_true] at h
    simp [h.1, ih h.2]

theorem parseValue_spaces {l : List Nat} (h : l.all isSpace) (fuel : Nat) (s : List Nat) :
    parseValue R fuel (l ++ s) = parseValue R fuel s := by
  cases fuel with
  | zero => rfl
  | succ fuel => rw [parseValue, parseValue, skipWhitespace_append h]

theorem parseValue_number {u : Nat} (h : isNumberUnit u = true) (fuel : Nat) (s : List Nat) :
    parseValue R (fuel + 1) (u :: s) = parseNumber R (u :: s) := by
  obtain ⟨hspace, h₁, h₂, h₃, h₄, h₅, h₆, _⟩ := isNumberUnit_ne h
  rw [parseValue, skipWhitespace_cons hspace]
  simp only [h₁, h₂, h₃, h₄, h₅, h₆, if_false]

theorem spells_head (hR : R.Lawful) {v : JsonValue T D} {l : List Nat} (h : Spells R.tokens v l) :
    ∃ u t, l = u :: t ∧ isSpace u = false ∧ u ≠ ']'.toNat ∧ u ≠ '\x7d'.toNat := by
  have hnumber : ∀ w, l.all isNumberUnit = true → R.number l = some w →
      ∃ u t, l = u :: t ∧ isSpace u = false ∧ u ≠ ']'.toNat ∧ u ≠ '\x7d'.toNat := by
    intro w hall hw
    cases l with
    | nil => rw [hR.number_nil] at hw; cases hw
    | cons u t =>
      simp only [List.all_cons, Bool.and_eq_true] at hall
      obtain ⟨hspace, _, _, _, _, _, _, h₁, h₂⟩ := isNumberUnit_ne hall.1
      exact ⟨u, t, rfl, hspace, h₁, h₂⟩
  cases v with
  | null => rw [Spells] at h; exact ⟨_, _, h, by decide, by decide, by decide⟩
  | bool flag =>
    rw [Spells] at h
    cases flag <;> exact ⟨_, _, h, by decide, by decide, by decide⟩
  | int number => rw [Spells] at h; exact hnumber _ h.1 h.2
  | dec number => rw [Spells] at h; exact hnumber _ h.1 h.2
  | str text => 
    rw [Spells] at h
    obtain ⟨body, h, _⟩ := h
    exact ⟨_, _, h, by decide, by decide, by decide⟩
  | arr elements => 
    rw [Spells] at h
    obtain ⟨body, h, _⟩ := h
    exact ⟨_, _, h, by decide, by decide, by decide⟩
  | obj members => 
    rw [Spells] at h
    obtain ⟨body, h, _⟩ := h
    exact ⟨_, _, h, by decide, by decide, by decide⟩

/-- What the parser does at the start of a text that spells `v`. -/
def ReadsBack (R : Reader T D) (v : JsonValue T D) : Prop :=
  ∀ l, Spells R.tokens v l → ∀ fuel r, 2 * l.length ≤ fuel → Follows r →
    parseValue R fuel (l ++ r) = some (v.rebuild R.collect, r)

theorem follows_ascii {u : Nat} (r : List Nat) (h : isNumberUnit u = false) : Follows (u :: r) := by
  intro u' hu
  cases hu
  exact h

/-- A value with whitespace on both sides, and then something that is not part of a number. -/
theorem parseValue_spaced {v : JsonValue T D} (hv : ReadsBack R v) {l : List Nat}
    (hl : Spaced (Spells R.tokens v) l) (fuel : Nat) (hfuel : 2 * l.length ≤ fuel) {r : List Nat}
    (hr : Follows r) : ∃ after, after.all isSpace ∧
      parseValue R fuel (l ++ r) = some (v.rebuild R.collect, after ++ r) := by
  obtain ⟨before, core, after, rfl, hbefore, hafter, hcore⟩ := hl
  refine ⟨after, hafter, ?_⟩
  simp only [List.length_append] at hfuel
  rw [List.append_assoc, parseValue_spaces hbefore, List.append_assoc]
  exact hv core hcore fuel _ (by omega) (follows_spaces hafter hr)

theorem parseElements_of_spells {elements : List (JsonValue T D)} (hall : ∀ e ∈ elements, ReadsBack R e)
    (hne : elements ≠ []) {l : List Nat} (hl : SpellsElements R.tokens elements l) {fuel : Nat}
    (hfuel : 2 * l.length + 1 ≤ fuel) (r : List Nat) :
    parseElements R fuel (l ++ ']'.toNat :: r) = some (elements.map (rebuild R.collect), r) := by
  induction elements generalizing l fuel with
  | nil => exact absurd rfl hne
  | cons e es ih =>
    obtain ⟨fuel, rfl⟩ : ∃ n, fuel = n + 1 := ⟨fuel - 1, by omega⟩
    rw [SpellsElements] at hl
    rcases hl with ⟨rfl, hl⟩ | ⟨l₁, l₂, rfl, hes, hl₁, hl₂⟩
    · obtain ⟨after, hafter, hvalue⟩ := parseValue_spaced (hall e List.mem_cons_self) hl
        fuel (by omega) (follows_ascii r (u := ']'.toNat) (by decide))
      rw [parseElements, hvalue, Option.bind_some]
      simp only [skipWhitespace_append hafter, skipWhitespace_cons (u := ']'.toNat) (by decide)]
      rfl
    · rw [List.append_assoc, List.cons_append]
      simp only [List.length_append, List.length_cons] at hfuel
      obtain ⟨after, hafter, hvalue⟩ := parseValue_spaced (hall e List.mem_cons_self) hl₁
        fuel (by omega)
        (follows_ascii (l₂ ++ ']'.toNat :: r) (u := ','.toNat) (by decide))
      rw [parseElements, hvalue, Option.bind_some]
      simp only [skipWhitespace_append hafter, skipWhitespace_cons (u := ','.toNat) (by decide)]
      rw [if_neg (by decide), if_true,
        ih (fun e he => hall e (List.mem_cons_of_mem _ he)) hes hl₂ (by omega)]
      rfl

theorem parseName_of_spells (hR : R.Lawful) {name : T} {l : List Nat}
    (hl : Spaced (Quoted R.tokens name) l) (r : List Nat) :
    parseName R (l ++ ':'.toNat :: r) = some (name, r) := by
  obtain ⟨before, core, after, rfl, hbefore, hafter, body, rfl, hbody⟩ := hl
  have htext : R.text (body ++ '"'.toNat :: (after ++ ':'.toNat :: r)) =
      some (name, after ++ ':'.toNat :: r) := (hR.text_iff _ _ _).mpr ⟨body, rfl, hbody⟩
  unfold parseName
  simp only [List.append_assoc, List.cons_append, List.nil_append]
  rw [skipWhitespace_append hbefore, skipWhitespace_cons (by decide)]
  simp only [if_true, htext, Option.bind_some, skipWhitespace_append hafter]
  rw [skipWhitespace_cons (by decide)]
  rfl

theorem parseMembers_of_spells (hR : R.Lawful) {members : List (T × JsonValue T D)}
    (hall : ∀ m ∈ members, ReadsBack R m.2) (hne : members ≠ []) {l : List Nat}
    (hl : SpellsMembers R.tokens members l) {fuel : Nat} (hfuel : 2 * l.length + 1 ≤ fuel)
    (r : List Nat) :
    parseMembers R fuel (l ++ '\x7d'.toNat :: r) =
      some (members.map fun m => (m.1, m.2.rebuild R.collect), r) := by
  induction members generalizing l fuel with
  | nil => exact absurd rfl hne
  | cons m ms ih =>
    obtain ⟨name, v⟩ := m
    obtain ⟨fuel, rfl⟩ : ∃ n, fuel = n + 1 := ⟨fuel - 1, by omega⟩
    rw [SpellsMembers] at hl
    obtain ⟨l₁, l₂, hname, ⟨rfl, rfl, hl₂⟩ | ⟨l₃, rfl, hms, hl₂, hl₃⟩⟩ := hl
    · simp only [List.length_append, List.length_cons] at hfuel
      obtain ⟨after, hafter, hvalue⟩ := parseValue_spaced (hall _ List.mem_cons_self) hl₂
        fuel (by omega) (follows_ascii r (u := '\x7d'.toNat) (by decide))
      rw [parseMembers, List.append_assoc, List.cons_append, parseName_of_spells hR hname,
        Option.bind_some]
      simp only [hvalue, Option.bind_some, skipWhitespace_append hafter,
        skipWhitespace_cons (u := '\x7d'.toNat) (by decide)]
      rfl
    · simp only [List.length_append, List.length_cons] at hfuel
      obtain ⟨after, hafter, hvalue⟩ := parseValue_spaced (hall _ List.mem_cons_self) hl₂
        fuel (by omega)
        (follows_ascii (l₃ ++ '\x7d'.toNat :: r) (u := ','.toNat) (by decide))
      rw [parseMembers, List.append_assoc, List.cons_append, List.append_assoc, List.cons_append,
        parseName_of_spells hR hname, Option.bind_some]
      simp only [hvalue, Option.bind_some, skipWhitespace_append hafter,
        skipWhitespace_cons (u := ','.toNat) (by decide)]
      rw [if_neg (by decide), if_true,
        ih (fun m hm => hall m (List.mem_cons_of_mem _ hm)) hms hl₃ (by omega)]
      rfl

theorem spellsElements_head (hR : R.Lawful) {elements : List (JsonValue T D)} (hne : elements ≠ [])
    {l : List Nat} (hl : SpellsElements R.tokens elements l) (r : List Nat) :
    ∃ u t, skipWhitespace (l ++ r) = u :: t ∧ u ≠ ']'.toNat := by
  have hspaced : ∀ (e : JsonValue T D) (l r : List Nat), Spaced (Spells R.tokens e) l →
      ∃ u t, skipWhitespace (l ++ r) = u :: t ∧ u ≠ ']'.toNat := by
    rintro e l r ⟨before, core, after, rfl, hbefore, _, hcore⟩
    obtain ⟨u, t, rfl, hspace, hu, _⟩ := spells_head hR hcore
    rw [List.append_assoc, skipWhitespace_append hbefore, List.append_assoc, List.cons_append,
      skipWhitespace_cons hspace]
    exact ⟨u, _, rfl, hu⟩
  cases elements with
  | nil => exact absurd rfl hne
  | cons e es =>
    rw [SpellsElements] at hl
    rcases hl with ⟨_, hl⟩ | ⟨l₁, l₂, rfl, _, hl₁, _⟩
    · exact hspaced e l r hl
    · rw [List.append_assoc]
      exact hspaced e l₁ _ hl₁

theorem spellsMembers_head {members : List (T × JsonValue T D)} (hne : members ≠ [])
    {l : List Nat} (hl : SpellsMembers R.tokens members l) (r : List Nat) :
    ∃ u t, skipWhitespace (l ++ r) = u :: t ∧ u ≠ '\x7d'.toNat := by
  have hspaced : ∀ (name : T) (l r : List Nat), Spaced (Quoted R.tokens name) l →
      ∃ u t, skipWhitespace (l ++ r) = u :: t ∧ u ≠ '\x7d'.toNat := by
    rintro name l r ⟨before, core, after, rfl, hbefore, _, body, rfl, _⟩
    rw [List.append_assoc, skipWhitespace_append hbefore, List.append_assoc, List.cons_append,
      skipWhitespace_cons (by decide)]
    exact ⟨_, _, rfl, by decide⟩
  cases members with
  | nil => exact absurd rfl hne
  | cons m ms =>
    obtain ⟨name, v⟩ := m
    rw [SpellsMembers] at hl
    obtain ⟨l₁, l₂, hname, ⟨_, rfl, _⟩ | ⟨l₃, rfl, _⟩⟩ := hl
    · rw [List.append_assoc]
      exact hspaced name l₁ _ hname
    · rw [List.append_assoc]
      exact hspaced name l₁ _ hname

theorem readsBack_number (hR : R.Lawful) {v : JsonValue T D} (hv : v.rebuild R.collect = v)
    (h : ∀ l, Spells R.tokens v l → l.all isNumberUnit ∧ R.number l = some v) :
    ReadsBack R v := by
  intro l hl fuel r hfuel hr
  obtain ⟨hall, hnumber⟩ := h l hl
  obtain ⟨htake, hdrop⟩ := takeWhile_number hall hr
  cases l with
  | nil => rw [hR.number_nil] at hnumber; cases hnumber
  | cons u l =>
    obtain ⟨fuel, rfl⟩ : ∃ n, fuel = n + 1 := ⟨fuel - 1, by simp at hfuel; omega⟩
    have hu : isNumberUnit u = true := by simp_all
    rw [List.cons_append] at htake hdrop ⊢
    rw [parseValue_number hu, parseNumber, htake, hdrop, hnumber, hv]
    rfl

/-- The parser reads every value back from its spellings. -/
theorem readsBack (hR : R.Lawful) (v : JsonValue T D) : ReadsBack R v := by
  induction v using induction with
  | null =>
    intro l hl fuel r hfuel _
    rw [Spells] at hl
    subst hl
    obtain ⟨fuel, rfl⟩ : ∃ n, fuel = n + 1 := ⟨fuel - 1, by simp [ascii] at hfuel; omega⟩
    simp [parseValue, skipWhitespace, isSpace, ascii, parseLiteral, rebuild]
  | bool flag =>
    intro l hl fuel r hfuel _
    rw [Spells] at hl
    subst hl
    obtain ⟨fuel, rfl⟩ : ∃ n, fuel = n + 1 :=
      ⟨fuel - 1, by cases flag <;> simp [ascii] at hfuel <;> omega⟩
    cases flag <;> simp [parseValue, skipWhitespace, isSpace, ascii, parseLiteral, rebuild]
  | int number =>
    exact readsBack_number hR rfl fun l hl => by rwa [Spells] at hl
  | dec number =>
    exact readsBack_number hR rfl fun l hl => by rwa [Spells] at hl
  | str text =>
    intro l hl fuel r hfuel _
    rw [Spells] at hl
    obtain ⟨body, rfl, hbody⟩ := hl
    obtain ⟨fuel, rfl⟩ : ∃ n, fuel = n + 1 := ⟨fuel - 1, by simp at hfuel; omega⟩
    have htext : R.text (body ++ '"'.toNat :: r) = some (text, r) :=
      (hR.text_iff _ _ _).mpr ⟨body, rfl, hbody⟩
    rw [parseValue, List.cons_append, skipWhitespace_cons (by decide), List.append_assoc]
    simp only [List.cons_append, List.nil_append, htext]
    simp [rebuild]
  | arr elements ih =>
    intro l hl fuel r hfuel _
    rw [Spells] at hl
    obtain ⟨body, rfl, hbody⟩ := hl
    simp only [List.length_cons, List.length_append, List.length_nil] at hfuel
    obtain ⟨fuel, rfl⟩ : ∃ n, fuel = n + 1 := ⟨fuel - 1, by omega⟩
    rw [parseValue, List.cons_append, skipWhitespace_cons (by decide), List.append_assoc]
    simp only [List.cons_append, List.nil_append]
    rw [if_neg (by decide), if_true]
    by_cases hne : elements = []
    · subst hne
      rw [SpellsElements] at hbody
      rw [skipWhitespace_append hbody, skipWhitespace_cons (by decide)]
      rfl
    · obtain ⟨u, t, hskip, hu⟩ := spellsElements_head hR hne hbody (']'.toNat :: r)
      rw [hskip]
      simp only [if_neg hu]
      rw [parseElements_of_spells ih hne hbody (by omega), Option.map_some, rebuild,
        rebuildElements_eq]
  | obj members ih =>
    intro l hl fuel r hfuel _
    rw [Spells] at hl
    obtain ⟨body, rfl, hbody⟩ := hl
    simp only [List.length_cons, List.length_append, List.length_nil] at hfuel
    obtain ⟨fuel, rfl⟩ : ∃ n, fuel = n + 1 := ⟨fuel - 1, by omega⟩
    rw [parseValue, List.cons_append, skipWhitespace_cons (by decide), List.append_assoc]
    simp only [List.cons_append, List.nil_append]
    rw [if_true]
    by_cases hne : members = []
    · subst hne
      rw [SpellsMembers] at hbody
      rw [skipWhitespace_append hbody, skipWhitespace_cons (by decide)]
      rfl
    · obtain ⟨u, t, hskip, hu⟩ := spellsMembers_head hne hbody ('\x7d'.toNat :: r)
      rw [hskip]
      simp only [if_neg hu]
      rw [parseMembers_of_spells hR ih hne hbody (by omega), Option.map_some, rebuild,
        rebuildMembers_eq]

/-! A parse that succeeds read a spelling. -/

/-- What is known of a value that the parser read. -/
def SoundValue (R : Reader T D) (fuel : Nat) : Prop :=
  ∀ s v r, parseValue R fuel s = some (v, r) →
    ∃ raw before l, s = before ++ (l ++ r) ∧ before.all isSpace ∧ Spells R.tokens raw l ∧
      v = raw.rebuild R.collect

def SoundElements (R : Reader T D) (fuel : Nat) : Prop :=
  ∀ s elements r, parseElements R fuel s = some (elements, r) →
    ∃ raw l, s = l ++ ']'.toNat :: r ∧ raw ≠ [] ∧ SpellsElements R.tokens raw l ∧
      elements = raw.map (rebuild R.collect)

def SoundMembers (R : Reader T D) (fuel : Nat) : Prop :=
  ∀ s members r, parseMembers R fuel s = some (members, r) →
    ∃ raw l, s = l ++ '\x7d'.toNat :: r ∧ raw ≠ [] ∧ SpellsMembers R.tokens raw l ∧
      members = raw.map fun m => (m.1, m.2.rebuild R.collect)

theorem parseName_sound (hR : R.Lawful) {s r : List Nat} {name : T}
    (h : parseName R s = some (name, r)) :
    ∃ l, s = l ++ ':'.toNat :: r ∧ Spaced (Quoted R.tokens name) l := by
  unfold parseName at h
  obtain ⟨before, hbefore, hs⟩ := skipWhitespace_eq_self_or s
  split at h
  · cases h
  · rename_i u rest hskip
    split at h
    · rename_i hu
      obtain ⟨⟨name', rest'⟩, htext, hcolon⟩ := Option.bind_eq_some_iff.mp h
      obtain ⟨body, rfl, hbody⟩ := (hR.text_iff _ _ _).mp htext
      obtain ⟨after, hafter, hrest⟩ := skipWhitespace_eq_self_or rest'
      simp only at hcolon
      split at hcolon
      · cases hcolon
      · rename_i u' rest'' hskip'
        split at hcolon
        · rename_i hu'
          cases hcolon
          refine ⟨before ++ (('"'.toNat :: (body ++ ['"'.toNat])) ++ after), ?_,
            before, _, after, rfl, hbefore, hafter, body, rfl, hbody⟩
          rw [hs, hskip, hu, hrest, hskip', hu']
          simp
        · cases hcolon
    · cases h

theorem parseLiteral_sound {literal : String} {v w : JsonValue T D} {s r : List Nat}
    (h : parseLiteral literal v s = some (w, r)) : w = v ∧ s = ascii literal ++ r := by
  unfold parseLiteral at h
  split at h
  · rename_i hprefix
    cases h
    refine ⟨rfl, ?_⟩
    obtain ⟨t, rfl⟩ := List.isPrefixOf_iff_prefix.mp hprefix
    rw [List.drop_left]
  · cases h

/-- A value with the white space on both sides of it. -/
theorem SoundValue.spaced {fuel : Nat} (hvalue : SoundValue R fuel) {s rest : List Nat}
    {v : JsonValue T D} (h : parseValue R fuel s = some (v, rest)) :
    ∃ raw value, s = value ++ skipWhitespace rest ∧ Spaced (Spells R.tokens raw) value ∧
      v = raw.rebuild R.collect := by
  obtain ⟨raw, before, l, rfl, hbefore, hspells, rfl⟩ := hvalue _ _ _ h
  obtain ⟨after, hafter, hrest⟩ := skipWhitespace_eq_self_or rest
  refine ⟨raw, before ++ (l ++ after), ?_, ⟨before, l, after, rfl, hbefore, hafter, hspells⟩, rfl⟩
  rw [List.append_assoc, List.append_assoc, ← hrest]

theorem soundElements_succ {fuel : Nat} (hvalue : SoundValue R fuel)
    (helements : SoundElements R fuel) : SoundElements R (fuel + 1) := by
  intro s elements r h
  rw [parseElements] at h
  obtain ⟨⟨v, rest⟩, hv, hnext⟩ := Option.bind_eq_some_iff.mp h
  obtain ⟨raw, value, rfl, hspaced, rfl⟩ := hvalue.spaced hv
  simp only at hnext
  split at hnext
  · cases hnext
  · rename_i u rest' hskip
    rw [hskip]
    split at hnext
    · rename_i hu
      cases hnext
      refine ⟨[raw], value, ?_, by simp, ?_, rfl⟩
      · rw [hu]
      · rw [SpellsElements]
        exact Or.inl ⟨rfl, hspaced⟩
    · split at hnext
      · rename_i hu
        obtain ⟨⟨es, r'⟩, hes, hnext⟩ := Option.map_eq_some_iff.mp hnext
        cases hnext
        obtain ⟨raws, l', rfl, hne, hspells', rfl⟩ := helements _ _ _ hes
        refine ⟨raw :: raws, value ++ ','.toNat :: l', ?_, by simp, ?_, rfl⟩
        · rw [hu]
          simp
        · rw [SpellsElements]
          exact Or.inr ⟨_, l', rfl, hne, hspaced, hspells'⟩
      · cases hnext

theorem soundMembers_succ (hR : R.Lawful) {fuel : Nat} (hvalue : SoundValue R fuel)
    (hmembers : SoundMembers R fuel) : SoundMembers R (fuel + 1) := by
  intro s members r h
  rw [parseMembers] at h
  obtain ⟨⟨name, rest₀⟩, hparse, hbind⟩ := Option.bind_eq_some_iff.mp h
  obtain ⟨l₁, rfl, hname⟩ := parseName_sound hR hparse
  obtain ⟨⟨v, rest⟩, hv, hnext⟩ := Option.bind_eq_some_iff.mp hbind
  obtain ⟨raw, value, rfl, hspaced, rfl⟩ := hvalue.spaced hv
  simp only at hnext
  split at hnext
  · cases hnext
  · rename_i u rest' hskip
    rw [hskip]
    split at hnext
    · rename_i hu
      cases hnext
      refine ⟨[(name, raw)], l₁ ++ ':'.toNat :: value, ?_, by simp, ?_, rfl⟩
      · rw [hu]
        simp
      · rw [SpellsMembers]
        exact ⟨l₁, _, hname, Or.inl ⟨rfl, rfl, hspaced⟩⟩
    · split at hnext
      · rename_i hu
        obtain ⟨⟨ms, r'⟩, hms, hnext⟩ := Option.map_eq_some_iff.mp hnext
        cases hnext
        obtain ⟨raws, l', rfl, hne, hspells', rfl⟩ := hmembers _ _ _ hms
        refine ⟨(name, raw) :: raws,
          l₁ ++ ':'.toNat :: (value ++ ','.toNat :: l'), ?_, by simp, ?_, rfl⟩
        · rw [hu]
          simp
        · rw [SpellsMembers]
          exact ⟨l₁, _, hname, Or.inr ⟨l', rfl, hne, hspaced, hspells'⟩⟩
      · cases hnext

theorem soundValue_succ (hR : R.Lawful) {fuel : Nat} (helements : SoundElements R fuel)
    (hmembers : SoundMembers R fuel) : SoundValue R (fuel + 1) := by
  intro s v r h
  obtain ⟨before, hbefore, hs⟩ := skipWhitespace_eq_self_or s
  -- It is enough to find what stands behind the whitespace.
  suffices hcore : ∃ raw l, skipWhitespace s = l ++ r ∧ Spells R.tokens raw l ∧
      v = raw.rebuild R.collect by
    obtain ⟨raw, l, hskip, hspells, hv⟩ := hcore
    exact ⟨raw, before, l, by rw [← hskip]; exact hs, hbefore, hspells, hv⟩
  rw [parseValue] at h
  split at h
  · cases h
  · rename_i u rest hskip
    rw [hskip]
    split at h
    · rename_i hu
      obtain ⟨space, hspace, hrest⟩ := skipWhitespace_eq_self_or rest
      split at h
      · cases h
      · rename_i u' rest' hskip'
        split at h
        · rename_i hu'
          cases h
          refine ⟨.obj [], u :: (space ++ [u']), ?_, ?_, by rw [rebuild, rebuildMembers]⟩
          · rw [hrest, hskip']
            simp
          · rw [Spells, hu, hu']
            exact ⟨space, rfl, by rwa [SpellsMembers]⟩
        · obtain ⟨⟨ms, r'⟩, hms, hnext⟩ := Option.map_eq_some_iff.mp h
          cases hnext
          obtain ⟨raw, l, rfl, _, hspells, rfl⟩ := hmembers _ _ _ hms
          refine ⟨.obj raw, u :: (l ++ ['\x7d'.toNat]), by simp, ?_, ?_⟩
          · rw [Spells, hu]
            exact ⟨l, rfl, hspells⟩
          · rw [rebuild, rebuildMembers_eq]
    · split at h
      · rename_i hu
        obtain ⟨space, hspace, hrest⟩ := skipWhitespace_eq_self_or rest
        split at h
        · cases h
        · rename_i u' rest' hskip'
          split at h
          · rename_i hu'
            cases h
            refine ⟨.arr [], u :: (space ++ [u']), ?_, ?_, by rw [rebuild, rebuildElements]⟩
            · rw [hrest, hskip']
              simp
            · rw [Spells, hu, hu']
              exact ⟨space, rfl, by rwa [SpellsElements]⟩
          · obtain ⟨⟨es, r'⟩, hes, hnext⟩ := Option.map_eq_some_iff.mp h
            cases hnext
            obtain ⟨raw, l, rfl, _, hspells, rfl⟩ := helements _ _ _ hes
            refine ⟨.arr raw, u :: (l ++ [']'.toNat]), by simp, ?_, ?_⟩
            · rw [Spells, hu]
              exact ⟨l, rfl, hspells⟩
            · rw [rebuild, rebuildElements_eq]
      · split at h
        · rename_i hu
          obtain ⟨⟨text, r'⟩, htext, hnext⟩ := Option.map_eq_some_iff.mp h
          cases hnext
          obtain ⟨body, rfl, hbody⟩ := (hR.text_iff _ _ _).mp htext
          refine ⟨.str text, u :: (body ++ ['"'.toNat]), by simp, ?_, by rw [rebuild]⟩
          rw [Spells, hu]
          exact ⟨body, rfl, hbody⟩
        · split at h
          · obtain ⟨rfl, heq⟩ := parseLiteral_sound h
            exact ⟨.bool true, _, heq, by rw [Spells]; rfl, by rw [rebuild]⟩
          · split at h
            · obtain ⟨rfl, heq⟩ := parseLiteral_sound h
              exact ⟨.bool false, _, heq, by rw [Spells]; rfl, by rw [rebuild]⟩
            · split at h
              · obtain ⟨rfl, heq⟩ := parseLiteral_sound h
                exact ⟨.null, _, heq, by rw [Spells], by rw [rebuild]⟩
              · obtain ⟨w, hw, hnext⟩ := Option.map_eq_some_iff.mp h
                cases hnext
                refine ⟨v, (u :: rest).takeWhile isNumberUnit,
                  List.takeWhile_append_dropWhile.symm, ?_, ?_⟩
                · obtain ⟨n, rfl⟩ | ⟨d, rfl⟩ := hR.number_only _ _ hw
                  · rw [Spells]
                    exact ⟨List.all_takeWhile, hw⟩
                  · rw [Spells]
                    exact ⟨List.all_takeWhile, hw⟩
                · obtain ⟨n, rfl⟩ | ⟨d, rfl⟩ := hR.number_only _ _ hw
                  · rw [rebuild]
                  · rw [rebuild]

theorem sound (hR : R.Lawful) (fuel : Nat) :
    SoundValue R fuel ∧ SoundElements R fuel ∧ SoundMembers R fuel := by
  induction fuel with
  | zero =>
    refine ⟨fun s v r h => ?_, fun s es r h => ?_, fun s ms r h => ?_⟩
    · rw [parseValue] at h
      cases h
    · rw [parseElements] at h
      cases h
    · rw [parseMembers] at h
      cases h
  | succ fuel ih =>
    obtain ⟨hvalue, helements, hmembers⟩ := ih
    exact ⟨soundValue_succ hR helements hmembers, soundElements_succ hvalue helements,
      soundMembers_succ hR hvalue hmembers⟩

/-- A text is parsed to a value exactly if it spells one that the reader keeps so. -/
theorem parse_eq_some_iff (hR : R.Lawful) {s : List Nat} {v : JsonValue T D} :
    parse R s = some v ↔
      ∃ raw, Spaced (Spells R.tokens raw) s ∧ v = raw.rebuild R.collect := by
  constructor
  · intro h
    obtain ⟨⟨w, rest⟩, hvalue, hend⟩ := Option.bind_eq_some_iff.mp h
    simp only at hend
    split at hend
    · rename_i hskip
      cases hend
      obtain ⟨raw, before, l, rfl, hbefore, hspells, rfl⟩ := (sound hR _).1 _ _ _ hvalue
      obtain ⟨after, hafter, hrest⟩ := skipWhitespace_eq_self_or rest
      rw [hskip, List.append_nil] at hrest
      exact ⟨raw, ⟨before, l, rest, rfl, hbefore, hrest ▸ hafter, hspells⟩, rfl⟩
    · cases hend
  · rintro ⟨raw, hspaced, rfl⟩
    obtain ⟨after, hafter, hvalue⟩ := parseValue_spaced (readsBack hR raw) hspaced _
      (Nat.le_succ (2 * s.length)) follows_nil
    rw [List.append_nil, List.append_nil] at hvalue
    have hskip : skipWhitespace after = [] := by
      have h := skipWhitespace_append hafter []
      rw [List.append_nil] at h
      exact h
    rw [parse, hvalue, Option.bind_some]
    simp only [hskip, if_true]

end Exactness

end JsonValue
