import Mathlib.Data.Nat.Bitwise
import Mathlib.Data.List.Lex
import Mathlib.Tactic.Common

/-!
# Code units

Texts as lists of code points and as lists of the code units of UTF-8 and UTF-16. Units are natural
numbers. An encoding leaves ASCII alone and writes everything else with units that are not ASCII,
so what looks for ASCII in an encoded text finds it where the text has it.
-/

namespace CodeUnits

set_option autoImplicit false

/-- The code points of a text. -/
def scalars (text : List Char) : List Nat := text.map Char.toNat

/-- The bytes of a code point. -/
def utf8Units (c : Nat) : List Nat :=
  if c < 0x80 then [c]
  else if c < 0x800 then [0xC0 + c / 64, 0x80 + c % 64]
  else if c < 0x10000 then [0xE0 + c / 4096, 0x80 + c / 64 % 64, 0x80 + c % 64]
  else [0xF0 + c / 262144, 0x80 + c / 4096 % 64, 0x80 + c / 64 % 64, 0x80 + c % 64]

/-- The UTF-16 units of a code point. -/
def utf16Units (c : Nat) : List Nat :=
  if c < 0x10000 then [c] else [0xD800 + (c - 0x10000) / 1024, 0xDC00 + (c - 0x10000) % 1024]

def utf8 (text : List Char) : List Nat := (scalars text).flatMap utf8Units

def utf16 (text : List Char) : List Nat := (scalars text).flatMap utf16Units

/-- What an encoding does with each code point. -/
structure Transparent (expand : Nat → List Nat) : Prop where
  ascii : ∀ c < 0x80, expand c = [c]
  wide : ∀ c, 0x80 ≤ c → expand c ≠ [] ∧ ∀ u ∈ expand c, 0x80 ≤ u

theorem Transparent.ne_nil {expand : Nat → List Nat} (h : Transparent expand) (c : Nat) :
    expand c ≠ [] := by
  by_cases hc : c < 0x80
  · rw [h.ascii c hc]
    simp
  · exact (h.wide c (by omega)).1

theorem Transparent.flatMap_eq_self {expand : Nat → List Nat} (h : Transparent expand) {l : List Nat}
    (hl : ∀ u ∈ l, u < 0x80) : l.flatMap expand = l := by
  induction l with
  | nil => rfl
  | cons u l ih =>
    rw [List.flatMap_cons, h.ascii u (hl u List.mem_cons_self),
      ih fun u hu => hl u (List.mem_cons_of_mem _ hu)]
    rfl

theorem transparent_utf8 : Transparent utf8Units := by
  constructor
  · intro c hc
    rw [utf8Units, if_pos hc]
  · intro c hc
    unfold utf8Units
    rw [if_neg (by omega)]
    split
    · simp
      omega
    · split <;> simp <;> omega

theorem transparent_utf16 : Transparent utf16Units := by
  constructor
  · intro c hc
    rw [utf16Units, if_pos (by omega)]
  · intro c hc
    unfold utf16Units
    split
    · simpa using hc
    · simp
      omega

theorem transparent_scalars : Transparent fun c => [c] := by
  constructor
  · intro c _
    rfl
  · intro c hc
    simpa using hc

/-! Reading code points back. -/

theorem toNat_lt (c : Char) : c.toNat < 0x110000 := by
  rcases c.valid with h | h
  · exact Nat.lt_trans h (by decide)
  · exact h.2

theorem toNat_ofNat_ascii {c : Nat} (h : c < 0x80) : (Char.ofNat c).toNat = c := by
  rw [Char.ofNat, dif_pos (Or.inl (by omega))]
  rfl

/-- The code points up to the last, without the surrogates. -/
theorem not_surrogate (c : Char) : c.toNat < 0xD800 ∨ 0xE000 ≤ c.toNat := by
  rcases c.valid with h | h
  · exact Or.inl h
  · exact Or.inr h.1

/-- The units of a code point end where they say. -/
structure Decodes (expand : Nat → List Nat) : Prop where
  unique : ∀ (c d : Char) (r s : List Nat),
    expand c.toNat ++ r = expand d.toNat ++ s → c = d ∧ r = s

theorem Decodes.injective {expand : Nat → List Nat} (h : Decodes expand)
    (hne : ∀ c, expand c ≠ []) {s t : List Char}
    (heq : (scalars s).flatMap expand = (scalars t).flatMap expand) : s = t := by
  induction s generalizing t with
  | nil =>
    cases t with
    | nil => rfl
    | cons d t => simp [scalars, hne, eq_comm] at heq
  | cons c s ih =>
    cases t with
    | nil => simp [scalars, hne] at heq
    | cons d t =>
      obtain ⟨rfl, hrest⟩ := h.unique c d _ _ heq
      rw [ih hrest]

theorem utf8Units_cases (c : Nat) :
    (c < 0x80 ∧ utf8Units c = [c]) ∨
    (0x80 ≤ c ∧ c < 0x800 ∧ utf8Units c = [0xC0 + c / 64, 0x80 + c % 64]) ∨
    (0x800 ≤ c ∧ c < 0x10000 ∧
      utf8Units c = [0xE0 + c / 4096, 0x80 + c / 64 % 64, 0x80 + c % 64]) ∨
    (0x10000 ≤ c ∧ utf8Units c =
      [0xF0 + c / 262144, 0x80 + c / 4096 % 64, 0x80 + c / 64 % 64, 0x80 + c % 64]) := by
  unfold utf8Units
  split
  · simp_all
  · split
    · simp_all
    · split <;> simp_all

theorem decodes_utf8 : Decodes utf8Units := by
  constructor
  intro c d r s h
  have hc := toNat_lt c
  have hd := toNat_lt d
  rw [← Char.toNat_inj]
  rcases utf8Units_cases c.toNat with ⟨h₁, hu⟩ | ⟨h₁, h₂, hu⟩ | ⟨h₁, h₂, hu⟩ | ⟨h₁, hu⟩ <;>
    rcases utf8Units_cases d.toNat with ⟨h₃, hv⟩ | ⟨h₃, h₄, hv⟩ | ⟨h₃, h₄, hv⟩ | ⟨h₃, hv⟩ <;>
    simp only [hu, hv, List.cons_append, List.nil_append, List.cons.injEq] at h <;>
    refine ⟨?_, ?_⟩ <;> try omega
  · exact h.2
  · exact h.2.2
  · exact h.2.2.2
  · exact h.2.2.2.2

theorem decodes_utf16 : Decodes utf16Units := by
  constructor
  intro c d r s h
  have hc := not_surrogate c
  have hd := not_surrogate d
  have hc' := toNat_lt c
  have hd' := toNat_lt d
  rw [← Char.toNat_inj]
  unfold utf16Units at h
  by_cases h₁ : c.toNat < 0x10000 <;> by_cases h₂ : d.toNat < 0x10000 <;>
    simp only [h₁, h₂, if_true, if_false, List.cons_append, List.nil_append, List.cons.injEq] at h <;>
    refine ⟨?_, ?_⟩ <;> try omega
  · exact h.2
  · exact h.2.2

theorem utf8_injective : Function.Injective utf8 := fun _ _ h =>
  decodes_utf8.injective transparent_utf8.ne_nil h

theorem utf16_injective : Function.Injective utf16 := fun _ _ h =>
  decodes_utf16.injective transparent_utf16.ne_nil h

/-! Reading bytes that need not be well formed. -/

/-- A sequence that has begun: its bits so far, the bytes that it still takes and the least and
the greatest that the next one can be. -/
structure Utf8Pending where
  bits : Nat
  owed : Nat
  low : Nat
  high : Nat
  deriving DecidableEq

def utf8Begin (b : Nat) : List Char × Option Utf8Pending :=
  if b < 0x80 then ([Char.ofNat b], none)
  else if 0xC2 ≤ b ∧ b < 0xE0 then ([], some ⟨b - 0xC0, 1, 0x80, 0xBF⟩)
  else if b = 0xE0 then ([], some ⟨0, 2, 0xA0, 0xBF⟩)
  else if b = 0xED then ([], some ⟨0xD, 2, 0x80, 0x9F⟩)
  else if 0xE1 ≤ b ∧ b < 0xF0 then ([], some ⟨b - 0xE0, 2, 0x80, 0xBF⟩)
  else if b = 0xF0 then ([], some ⟨0, 3, 0x90, 0xBF⟩)
  else if 0xF1 ≤ b ∧ b < 0xF4 then ([], some ⟨b - 0xF0, 3, 0x80, 0xBF⟩)
  else if b = 0xF4 then ([], some ⟨4, 3, 0x80, 0x8F⟩)
  else (['\uFFFD'], none)

def utf8Step : Option Utf8Pending → Nat → List Char × Option Utf8Pending
  | none, b => utf8Begin b
  | some p, b =>
    if p.low ≤ b ∧ b ≤ p.high then
      let bits := p.bits * 64 + (b - 0x80)
      if p.owed = 1 then ([Char.ofNat bits], none) else ([], some ⟨bits, p.owed - 1, 0x80, 0xBF⟩)
    else ('\uFFFD' :: (utf8Begin b).1, (utf8Begin b).2)

def decodeUtf8From : Option Utf8Pending → List Nat → List Char
  | none, [] => []
  | some _, [] => ['\uFFFD']
  | p, b :: rest => (utf8Step p b).1 ++ decodeUtf8From (utf8Step p b).2 rest

/-- The text of some bytes, with a replacement character for each sequence that is none. -/
def decodeUtf8 (bytes : List Nat) : List Char := decodeUtf8From none bytes

theorem decodeUtf8From_cons (p : Option Utf8Pending) (b : Nat) (rest : List Nat) :
    decodeUtf8From p (b :: rest) = (utf8Step p b).1 ++ decodeUtf8From (utf8Step p b).2 rest := by
  cases p <;> rfl

theorem utf8Begin_two : ∀ x < 32, 2 ≤ x →
    utf8Begin (0xC0 + x) = ([], some ⟨x, 1, 0x80, 0xBF⟩) := by decide

theorem utf8Begin_three : ∀ x < 16, utf8Begin (0xE0 + x) =
    ([], some ⟨x, 2, if x = 0 then 0xA0 else 0x80, if x = 0xD then 0x9F else 0xBF⟩) := by decide

theorem utf8Begin_four : ∀ x < 5, utf8Begin (0xF0 + x) =
    ([], some ⟨x, 3, if x = 0 then 0x90 else 0x80, if x = 4 then 0x8F else 0xBF⟩) := by decide

theorem utf8Step_last {bits low high x : Nat} (hlow : low ≤ 0x80 + x) (hhigh : 0x80 + x ≤ high) :
    utf8Step (some ⟨bits, 1, low, high⟩) (0x80 + x) = ([Char.ofNat (bits * 64 + x)], none) := by
  simp only [utf8Step, if_pos (And.intro hlow hhigh), if_true, Nat.add_sub_cancel_left]

theorem utf8Step_more {bits low high x : Nat} (owed : Nat) (hlow : low ≤ 0x80 + x)
    (hhigh : 0x80 + x ≤ high) : utf8Step (some ⟨bits, owed + 2, low, high⟩) (0x80 + x) =
      ([], some ⟨bits * 64 + x, owed + 1, 0x80, 0xBF⟩) := by
  simp only [utf8Step, if_pos (And.intro hlow hhigh), Nat.add_sub_cancel_left]
  rw [if_neg (by omega)]
  rfl

theorem decodeUtf8From_char (c : Char) (r : List Nat) :
    decodeUtf8From none (utf8Units c.toNat ++ r) = c :: decodeUtf8From none r := by
  have hc := toNat_lt c
  have hs := not_surrogate c
  have hchar : ∀ n, n = c.toNat → Char.ofNat n = c := fun n hn => hn ▸ Char.ofNat_toNat c
  rcases utf8Units_cases c.toNat with ⟨h₁, hu⟩ | ⟨h₁, h₂, hu⟩ | ⟨h₁, h₂, hu⟩ | ⟨h₁, hu⟩ <;>
    rw [hu] <;> simp only [List.cons_append, List.nil_append, decodeUtf8From_cons]
  · simp [utf8Step, utf8Begin, h₁, hchar]
  · rw [utf8Step, utf8Begin_two _ (by omega) (by omega)]
    simp only
    rw [utf8Step_last (by omega) (by omega), hchar _ (by omega)]
    rfl
  · rw [utf8Step, utf8Begin_three _ (by omega)]
    simp only
    rw [utf8Step_more 0 (by split <;> omega) (by split <;> omega)]
    simp only
    rw [utf8Step_last (by omega) (by omega), hchar _ (by omega)]
    rfl
  · rw [utf8Step, utf8Begin_four _ (by omega)]
    simp only
    rw [utf8Step_more 1 (by split <;> omega) (by split <;> omega)]
    simp only
    rw [utf8Step_more 0 (by omega) (by omega)]
    simp only
    rw [utf8Step_last (by omega) (by omega), hchar _ (by omega)]
    rfl

theorem decodeUtf8_utf8 (text : List Char) : decodeUtf8 (utf8 text) = text := by
  induction text with
  | nil => rfl
  | cons c text ih =>
    change decodeUtf8From none (utf8Units c.toNat ++ utf8 text) = c :: text
    rw [decodeUtf8From_char]
    exact congrArg (c :: ·) ih

/-! The order of UTF-16 units. -/

/-- The first unit of a code point. -/
def leadUnit (c : Nat) : Nat := if c < 0x10000 then c else 0xD800 + (c - 0x10000) / 1024

theorem utf16_nil : utf16 [] = [] := rfl

theorem utf16_cons (c : Char) (s : List Char) : utf16 (c :: s) = utf16Units c.toNat ++ utf16 s := rfl

/-- The lead units decide, then the code points, then what follows. -/
theorem utf16_cons_lt_cons (c d : Char) (s t : List Char) :
    utf16 (c :: s) < utf16 (d :: t) ↔
      if leadUnit c.toNat ≠ leadUnit d.toNat then leadUnit c.toNat < leadUnit d.toNat
      else if c.toNat ≠ d.toNat then c.toNat < d.toNat
      else utf16 s < utf16 t := by
  have hc := not_surrogate c
  have hd := not_surrogate d
  have hc' := toNat_lt c
  have hd' := toNat_lt d
  rw [utf16_cons, utf16_cons]
  unfold utf16Units leadUnit
  by_cases hrest : utf16 s < utf16 t <;>
    by_cases h₁ : c.toNat < 0x10000 <;> by_cases h₂ : d.toNat < 0x10000 <;>
    simp only [h₁, h₂, hrest, if_true, if_false, List.cons_append, List.nil_append,
      List.cons_lt_cons_iff, and_true, and_false, or_false] <;>
    split_ifs <;> (try simp only [iff_true, iff_false]) <;> omega

end CodeUnits
