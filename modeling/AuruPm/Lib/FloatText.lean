import Mathlib.Data.Nat.Notation

/-!
# Binary64 numbers and their texts

Parsing as `f64::from_str` does it, and what it means for two numbers to be equal: to have one key,
which not-a-number lacks.
-/

namespace FloatText

set_option autoImplicit false

open Float.Model

/-! Parsing. -/

def digitsValue (digits : List Char) : Nat :=
  digits.foldl (fun n c => 10 * n + (c.toNat - '0'.toNat)) 0

/-- A sign and what follows it. -/
def splitSign : List Char → Bool × List Char
  | '-' :: rest => (true, rest)
  | '+' :: rest => (false, rest)
  | rest => (false, rest)

/-- What is behind the digits: nothing, or an exponent. -/
def parseExponent : List Char → Option Int
  | [] => some 0
  | c :: rest =>
    let (negative, digits) := splitSign rest
    if (c = 'e' ∨ c = 'E') ∧ digits ≠ [] ∧ digits.all Char.isDigit then
      some (if negative then -(digitsValue digits : Int) else digitsValue digits)
    else none

/-- Digits with a point at most, before an exponent. -/
def parseDecimal (text : List Char) : Option Float :=
  let (whole, rest) := text.span Char.isDigit
  let (fraction, rest) :=
    match rest with
    | '.' :: rest => rest.span Char.isDigit
    | rest => ([], rest)
  if whole ++ fraction = [] then none
  else
    (parseExponent rest).map fun exponent =>
      .ofModel (Float.Model.ofScientific (digitsValue (whole ++ fraction))
        (exponent - fraction.length))

/-- `f64::from_str` -/
def parseFloat (text : String) : Option Float :=
  let (negative, magnitude) := splitSign text.toList
  let word := String.ofList (magnitude.map Char.toLower)
  let value :=
    if word = "inf" ∨ word = "infinity" then some (Float.ofBits 0x7FF0000000000000)
    else if word = "nan" then some (Float.ofBits 0x7FF8000000000000)
    else parseDecimal magnitude
  value.map fun value => if negative then -value else value

/-! Equality. -/

/-- Kind, exponent and mantissa; the two zeros are one. -/
abbrev Key := Fin 5 × Int × Nat

def unpackedKey : UnpackedFloat → Option Key
  | .notANumber => none
  | .infinity .positive => some (0, 0, 0)
  | .infinity .negative => some (1, 0, 0)
  | .zero _ => some (2, 0, 0)
  | .finite .positive mantissa exponent _ => some (3, exponent, mantissa)
  | .finite .negative mantissa exponent _ => some (4, exponent, mantissa)

def floatKey (x : Float) : Option Key := unpackedKey x.toModel.unpack

theorem compare_eq_iff (a b : UnpackedFloat) :
    a.compare b = some .eq ↔ ∃ k, unpackedKey a = some k ∧ unpackedKey b = some k := by
  rcases a with (_ | _) | _ | _ | ⟨_ | _, m, e, h⟩ <;>
    rcases b with (_ | _) | _ | _ | ⟨_ | _, m', e', h'⟩ <;>
    dsimp only [UnpackedFloat.compare, unpackedKey] <;> simp
  all_goals first
    | exact and_congr eq_comm eq_comm
    | decide

/-- Numbers are equal where they have one key. -/
theorem beq_iff (x y : Float) : (x == y) = true ↔ ∃ k, floatKey x = some k ∧ floatKey y = some k := by
  have hbeq : (x == y) = (x.toModel.unpack.compare y.toModel.unpack == some .eq) := rfl
  rw [hbeq, beq_iff_eq, compare_eq_iff]
  rfl

/-- The key of a number that may be missing: missing numbers are equal. -/
def optionKey : Option Float → Option (Option Key)
  | none => some none
  | some x => (floatKey x).map some

theorem option_beq_iff (x y : Option Float) :
    (x == y) = true ↔ ∃ k, optionKey x = some k ∧ optionKey y = some k := by
  cases x with
  | none =>
    cases y with
    | none => exact iff_of_true rfl ⟨none, rfl, rfl⟩
    | some y => simp [optionKey]
  | some x =>
    cases y with
    | none => simp [optionKey]
    | some y =>
      have hbeq : (some x == some y) = (x == y) := rfl
      rw [hbeq, beq_iff]
      constructor
      · rintro ⟨k, hx, hy⟩
        exact ⟨some k, congrArg (Option.map some) hx, congrArg (Option.map some) hy⟩
      · rintro ⟨k, hx, hy⟩
        obtain ⟨kx, hkx, rfl⟩ := Option.map_eq_some_iff.mp hx
        obtain ⟨ky, hky, heq⟩ := Option.map_eq_some_iff.mp hy
        cases heq
        exact ⟨kx, hkx, hky⟩

theorem option_beq_comm (x y : Option Float) : (x == y) = (y == x) := by
  rw [Bool.eq_iff_iff, option_beq_iff, option_beq_iff]
  simp only [and_comm]

example : parseFloat "1.5e1" = some (Float.ofBits 0x402E000000000000) := by decide +kernel

/-! Differences. -/

theorem unpacked_sub_self (spec : Format) (u : UnpackedFloat) :
    u.sub spec u = .notANumber ∨ u.sub spec u = .zero .positive := by
  cases u with
  | notANumber => exact .inl rfl
  | infinity sign => cases sign <;> exact .inl rfl
  | zero sign => cases sign <;> exact .inr rfl
  | finite sign mantissa exponent h =>
    refine .inr ?_
    unfold UnpackedFloat.sub UnpackedFloat.normalize
    simp

/-- A number less itself is zero, or not a number if it is infinite or none. -/
theorem sub_self_eq (x : Float) :
    x - x = Float.ofBits 0x7FF8000000000000 ∨ x - x = Float.ofBits 0 := by
  have hsub : x - x = .ofModel (.pack
    (UnpackedFloat.sub Format.binary64 x.toModel.unpack x.toModel.unpack)) := rfl
  rw [hsub]
  rcases unpacked_sub_self Format.binary64 x.toModel.unpack with h | h
  · rw [h]
    left
    decide +kernel
  · rw [h]
    right
    decide +kernel

end FloatText
