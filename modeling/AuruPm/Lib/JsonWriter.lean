import AuruPm.Lib.JsonGrammar

/-!
# Compact texts

The text of a value without whitespace, with strings quoted as `JSON.stringify` quotes them. It
spells the value, and an encoding of it is the text of the encoded value.
-/

set_option autoImplicit false

namespace JsonValue

open CodeUnits

variable {T D T₁ D₁ : Type}

def hexDigit (n : Nat) : Nat := if n < 10 then '0'.toNat + n else 'a'.toNat + (n - 10)

/-- Four hexadecimal digits. -/
def hex4 (n : Nat) : List Nat :=
  [hexDigit (n / 4096 % 16), hexDigit (n / 256 % 16), hexDigit (n / 16 % 16), hexDigit (n % 16)]

/-- A unit as it stands between quotes. -/
def escape (u : Nat) : List Nat :=
  if u = '"'.toNat then ascii "\\\""
  else if u = '\\'.toNat then ascii "\\\\"
  else if u = 0x08 then ascii "\\b"
  else if u = 0x0C then ascii "\\f"
  else if u = 0x0A then ascii "\\n"
  else if u = 0x0D then ascii "\\r"
  else if u = 0x09 then ascii "\\t"
  else if u < 0x20 then ascii "\\u" ++ hex4 u
  else [u]

def quote (units : List Nat) : List Nat := '"'.toNat :: (units.flatMap escape ++ ['"'.toNat])

def decimal (number : Int64) : List Nat := ascii (toString number.toInt)

/-- The parts with commas between them. -/
def commas : List (List Nat) → List Nat
  | [] => []
  | [part] => part
  | part :: next :: parts => part ++ ','.toNat :: commas (next :: parts)

section Compact
variable (string : T → List Nat) (double : D → List Nat)

mutual
def compact : JsonValue T D → List Nat
  | .null => ascii "null"
  | .bool flag => ascii (if flag then "true" else "false")
  | .int number => decimal number
  | .dec number => double number
  | .str text => string text
  | .arr elements => '['.toNat :: (commas (compactElements elements) ++ [']'.toNat])
  | .obj members => '\x7b'.toNat :: (commas (compactMembers members) ++ ['\x7d'.toNat])
def compactElements : List (JsonValue T D) → List (List Nat)
  | [] => []
  | e :: es => compact e :: compactElements es
def compactMembers : List (T × JsonValue T D) → List (List Nat)
  | [] => []
  | (name, v) :: ms => (string name ++ ':'.toNat :: compact v) :: compactMembers ms
end

theorem compactElements_eq (elements : List (JsonValue T D)) :
    compactElements string double elements = elements.map (compact string double) := by
  induction elements with
  | nil => rfl
  | cons e es ih => rw [compactElements, ih, List.map_cons]

theorem compactMembers_eq (members : List (T × JsonValue T D)) :
    compactMembers string double members =
      members.map fun m => string m.1 ++ ':'.toNat :: compact string double m.2 := by
  induction members with
  | nil => rfl
  | cons m ms ih => rw [compactMembers, ih, List.map_cons]

end Compact

/-! Only ASCII is written around the texts. -/

theorem escape_of_le {u : Nat} (h : 0x80 ≤ u) : escape u = [u] := by
  have h₁ : u ≠ '"'.toNat := by simp; omega
  have h₂ : u ≠ '\\'.toNat := by simp; omega
  unfold escape
  rw [if_neg h₁, if_neg h₂, if_neg (by omega), if_neg (by omega), if_neg (by omega),
    if_neg (by omega), if_neg (by omega), if_neg (by omega)]

theorem escape_ascii : ∀ u < 0x80, ∀ w ∈ escape u, w < 0x80 := by
  decide +kernel

/-- Escaping and encoding commute. -/
theorem flatMap_escape {expand : Nat → List Nat} (h : Transparent expand) (l : List Nat) :
    (l.flatMap expand).flatMap escape = (l.flatMap escape).flatMap expand := by
  rw [List.flatMap_assoc, List.flatMap_assoc]
  refine List.flatMap_congr fun u _ => ?_
  by_cases hu : u < 0x80
  · rw [h.ascii u hu, h.flatMap_eq_self (escape_ascii u hu)]
    simp
  · obtain ⟨_, hwide⟩ := h.wide u (by omega)
    rw [escape_of_le (by omega), List.flatMap_cons, List.flatMap_nil, List.append_nil]
    generalize expand u = units at hwide
    induction units with
    | nil => rfl
    | cons w units ih =>
      rw [List.flatMap_cons, escape_of_le (hwide w List.mem_cons_self),
        ih fun w hw => hwide w (List.mem_cons_of_mem _ hw)]
      rfl

theorem quote_flatMap {expand : Nat → List Nat} (h : Transparent expand) (l : List Nat) :
    quote (l.flatMap expand) = (quote l).flatMap expand := by
  simp [quote, flatMap_escape h, h.ascii]

theorem decimal_eq (number : Int64) :
    decimal number = (if number.toInt < 0 then ['-'.toNat] else []) ++
      (Nat.toDigits 10 number.toInt.natAbs).map Char.toNat := by
  unfold decimal ascii
  cases h : number.toInt with
  | ofNat n => simp [toString, Int.repr]
  | negSucc n => simp [toString, Int.repr]

theorem isDigit_of_mem_toDigits {n u : Nat} (h : u ∈ (Nat.toDigits 10 n).map Char.toNat) :
    isDigit u = true := by
  obtain ⟨c, hc, rfl⟩ := List.mem_map.mp h
  have hdigit := Nat.isDigit_of_mem_toDigits (by decide) (by decide) hc
  simpa [Char.isDigit, isDigit, UInt32.le_iff_toNat_le] using hdigit

theorem decimal_lt (number : Int64) : ∀ u ∈ decimal number, u < 0x80 := by
  intro u hu
  rw [decimal_eq, List.mem_append] at hu
  rcases hu with hu | hu
  · split at hu <;> simp at hu
    omega
  · have := isDigit_of_mem_toDigits hu
    simp [isDigit] at this
    omega

theorem flatMap_commas {expand : Nat → List Nat} (h : Transparent expand) (parts : List (List Nat)) :
    (commas parts).flatMap expand = commas (parts.map fun part => part.flatMap expand) := by
  induction parts with
  | nil => rfl
  | cons part parts ih =>
    cases parts with
    | nil => rfl
    | cons next parts =>
      rw [commas, List.flatMap_append, List.flatMap_cons, ih, h.ascii _ (by decide)]
      rfl

/-- An encoding of the text is the text of the encoded value. -/
theorem compact_map {expand : Nat → List Nat} (h : Transparent expand) {f : T → T₁} {g : D → D₁}
    {string : T → List Nat} {string₁ : T₁ → List Nat} {double : D → List Nat}
    {double₁ : D₁ → List Nat} (hstring : ∀ text, string₁ (f text) = (string text).flatMap expand)
    {v : JsonValue T D} (hdouble : Everywhere (fun w =>
      ∀ number, w = .dec number → double₁ (g number) = (double number).flatMap expand) v) :
    compact string₁ double₁ (v.map f g) = (compact string double v).flatMap expand := by
  induction v using induction with
  | null => exact (h.flatMap_eq_self (l := ascii "null") (by decide)).symm
  | bool flag =>
    exact (h.flatMap_eq_self (l := ascii (if flag then "true" else "false"))
      (by cases flag <;> decide)).symm
  | int number => exact (h.flatMap_eq_self (decimal_lt number)).symm
  | dec number => exact hdouble _ List.mem_cons_self number rfl
  | str text => exact hstring text
  | arr elements ih =>
    rw [everywhere_arr] at hdouble
    rw [map, compact, compact, mapElements_eq, compactElements_eq, compactElements_eq,
      List.flatMap_cons, List.flatMap_append, flatMap_commas h, List.map_map, List.map_map,
      h.ascii _ (by decide), List.flatMap_singleton, h.ascii _ (by decide)]
    simp only [Function.comp_def, List.cons_append, List.nil_append]
    rw [List.map_congr_left fun e he => ih e he (hdouble.2 e he)]
  | obj members ih =>
    rw [everywhere_obj] at hdouble
    rw [map, compact, compact, mapMembers_eq, compactMembers_eq, compactMembers_eq,
      List.flatMap_cons, List.flatMap_append, flatMap_commas h, List.map_map, List.map_map,
      h.ascii _ (by decide), List.flatMap_singleton, h.ascii _ (by decide)]
    simp only [Function.comp_def, List.cons_append, List.nil_append, List.flatMap_append,
      List.flatMap_cons, hstring, h.ascii ':'.toNat (by decide)]
    rw [List.map_congr_left fun m hm => by rw [ih m hm (hdouble.2 m hm)]]

/-! A compact text spells its value. -/

theorem spaced_of {P : List Nat → Prop} {l : List Nat} (h : P l) : Spaced P l :=
  ⟨[], l, [], by simp, rfl, rfl, h⟩

theorem spells_compact {S : Tokens T D} {string : T → List Nat} {double : D → List Nat}
    (hint : ∀ number, S.int (decimal number) number)
    (hstring : ∀ text, Quoted S text (string text)) {v : JsonValue T D} (hv : Integral v) :
    Spells S v (compact string double v) := by
  induction v using induction with
  | null =>
    rw [Spells]
    rfl
  | bool flag =>
    rw [Spells]
    rfl
  | int number =>
    rw [Spells]
    exact hint number
  | dec number => exact absurd rfl (hv _ List.mem_cons_self number)
  | str text =>
    rw [Spells]
    exact hstring text
  | arr elements ih =>
    rw [Integral, everywhere_arr] at hv
    rw [Spells, compact]
    refine ⟨_, rfl, ?_⟩
    have hspaced : ∀ e ∈ elements, Spaced (Spells S e) (compact string double e) :=
      fun e he => spaced_of (ih e he (hv.2 e he))
    clear ih hv
    induction elements with
    | nil =>
      rw [SpellsElements]
      rfl
    | cons e es ih =>
      have he := hspaced e List.mem_cons_self
      cases es with
      | nil =>
        rw [SpellsElements]
        exact Or.inl ⟨rfl, he⟩
      | cons next es =>
        rw [SpellsElements]
        exact Or.inr ⟨_, _, rfl, List.cons_ne_nil _ _, he,
          ih fun e he => hspaced e (List.mem_cons_of_mem _ he)⟩
  | obj members ih =>
    rw [Integral, everywhere_obj] at hv
    rw [Spells, compact]
    refine ⟨_, rfl, ?_⟩
    have hspaced : ∀ m ∈ members, Spaced (Spells S m.2) (compact string double m.2) :=
      fun m hm => spaced_of (ih m hm (hv.2 m hm))
    clear ih hv
    induction members with
    | nil =>
      rw [SpellsMembers]
      rfl
    | cons m ms ih =>
      obtain ⟨name, v⟩ := m
      have hv := hspaced (name, v) List.mem_cons_self
      rw [SpellsMembers]
      refine ⟨_, compact string double v, spaced_of (hstring name), ?_⟩
      cases ms with
      | nil => exact Or.inl ⟨rfl, rfl, hv⟩
      | cons next ms =>
        refine Or.inr ⟨commas (compactMembers string double (next :: ms)), ?_,
          List.cons_ne_nil _ _, hv, ih fun m hm => hspaced m (List.mem_cons_of_mem _ hm)⟩
        simp only [compactMembers, commas, List.append_assoc, List.cons_append]

/-! The units of a compact text. -/

theorem forall_mem_commas {P : Nat → Prop} (hcomma : P ','.toNat) {parts : List (List Nat)}
    (h : ∀ part ∈ parts, ∀ u ∈ part, P u) : ∀ u ∈ commas parts, P u := by
  induction parts with
  | nil => simp [commas]
  | cons part parts ih =>
    have hparts := ih fun part hpart => h part (List.mem_cons_of_mem _ hpart)
    cases parts with
    | nil => exact h part List.mem_cons_self
    | cons next parts =>
      rw [commas]
      intro u hu
      rcases List.mem_append.mp hu with hu | hu
      · exact h part List.mem_cons_self u hu
      · rcases List.mem_cons.mp hu with rfl | hu
        · exact hcomma
        · exact hparts u hu

theorem forall_mem_quote {P : Nat → Prop} (hascii : ∀ u < 0x80, P u) {units : List Nat}
    (h : ∀ u ∈ units, P u) : ∀ u ∈ quote units, P u := by
  have hquote : P '"'.toNat := hascii _ (by decide)
  have hbody : ∀ u ∈ units.flatMap escape, P u := by
    intro u hu
    obtain ⟨w, hw, hu⟩ := List.mem_flatMap.mp hu
    by_cases hlt : w < 0x80
    · exact hascii u (escape_ascii w hlt u hu)
    · rw [escape_of_le (by omega), List.mem_singleton] at hu
      exact hu ▸ h w hw
  intro u hu
  rcases List.mem_cons.mp hu with rfl | hu
  · exact hquote
  · rcases List.mem_append.mp hu with hu | hu
    · exact hbody u hu
    · rw [List.mem_singleton] at hu
      exact hu ▸ hquote

/-- What holds of ASCII and of the quoted texts holds of the whole text. -/
theorem forall_mem_compact {P : Nat → Prop} (hascii : ∀ u < 0x80, P u) {string : T → List Nat}
    {double : D → List Nat} (hstring : ∀ text, ∀ u ∈ string text, P u)
    (hdouble : ∀ number, ∀ u ∈ double number, P u) (v : JsonValue T D) :
    ∀ u ∈ compact string double v, P u := by
  have hlit : ∀ {l : List Nat}, (∀ u ∈ l, u < 0x80) → ∀ u ∈ l, P u := fun h u hu =>
    hascii u (h u hu)
  induction v using induction with
  | null => exact hlit (l := ascii "null") (by decide)
  | bool flag =>
    exact hlit (l := ascii (if flag then "true" else "false")) (by cases flag <;> decide)
  | int number => exact hlit (decimal_lt number)
  | dec number => exact hdouble number
  | str text => exact hstring text
  | arr elements ih =>
    have hparts := forall_mem_commas (hascii _ (by decide)) (List.forall_mem_map.mpr ih)
    rw [compact, compactElements_eq]
    simp only [List.mem_cons, List.mem_append, List.not_mem_nil, or_false]
    rintro u (rfl | hu | rfl)
    · exact hascii _ (by decide)
    · exact hparts u hu
    · exact hascii _ (by decide)
  | obj members ih =>
    have hparts : ∀ u ∈ commas (compactMembers string double members), P u := by
      rw [compactMembers_eq]
      refine forall_mem_commas (hascii _ (by decide)) (List.forall_mem_map.mpr fun m hm => ?_)
      simp only [List.mem_append, List.mem_cons]
      rintro u (hu | rfl | hu)
      · exact hstring m.1 u hu
      · exact hascii _ (by decide)
      · exact ih m hm u hu
    rw [compact]
    simp only [List.mem_cons, List.mem_append, List.not_mem_nil, or_false]
    rintro u (rfl | hu | rfl)
    · exact hascii _ (by decide)
    · exact hparts u hu
    · exact hascii _ (by decide)

end JsonValue
