import Mathlib.Data.Nat.Log
import Mathlib.Tactic.Ring

/-!
# Integers printed as binary64 numbers

An integer is rounded to the nearest binary64 number, and that number is printed with the
fewest digits that still round to it, as ECMAScript does. What is printed is an integer again.
-/

namespace Binary64

set_option autoImplicit false

/-- The nearest number with 53 significant bits; a tie goes to the even significand. -/
def round (n : Nat) : Nat :=
  let unit := 2 ^ (n.log2 - 52)
  let significand := n / unit
  let rest := n % unit
  if 2 * rest < unit ∨ (2 * rest = unit ∧ significand % 2 = 0) then significand * unit
  else (significand + 1) * unit

/-- The multiple of `unit` that stands for `x`, when one does. -/
def spelling (x unit : Nat) : Option Nat :=
  let digits := x / unit
  let below := digits * unit
  let above := (digits + 1) * unit
  match decide (round below = x), decide (round above = x) with
  | true, true =>
    if x - below < above - x ∨ (x - below = above - x ∧ digits % 2 = 0) then some below
    else some above
  | true, false => some below
  | false, true => some above
  | false, false => none

/-- The spelling with the most trailing zeros, up to so many. -/
def shortest (x : Nat) : Nat → Nat
  | 0 => x
  | zeros + 1 => (spelling x (10 ^ (zeros + 1))).getD (shortest x zeros)

def printNat (n : Nat) : Nat := shortest (round n) (round n).log2

def print (i : Int) : Int :=
  match i with
  | .ofNat n => printNat n
  | .negSucc n => -printNat (n + 1)

theorem print_ofNat (n : Nat) : print (.ofNat n) = printNat n := rfl

theorem round_of_lt {n : Nat} (h : n < 2 ^ 53) : round n = n := by
  have hlog : n.log2 - 52 = 0 := by
    rcases Nat.eq_zero_or_pos n with rfl | hpos
    · rfl
    · have := (Nat.log2_lt (Nat.ne_of_gt hpos)).mpr h
      omega
  simp [round, hlog, Nat.mod_one]

theorem le_round {n : Nat} (h : 2 ^ 53 ≤ n) : 2 ^ 53 ≤ round n := by
  have hne : n ≠ 0 := by omega
  have hlog : 53 ≤ n.log2 := (Nat.le_log2 hne).mpr h
  have hsignificand : 2 ^ 52 ≤ n / 2 ^ (n.log2 - 52) := by
    rw [Nat.le_div_iff_mul_le (Nat.pow_pos (by omega)), ← Nat.pow_add,
      show 52 + (n.log2 - 52) = n.log2 by omega]
    exact Nat.log2_self_le hne
  have hunit : 2 ≤ 2 ^ (n.log2 - 52) := by
    calc 2 = 2 ^ 1 := rfl
      _ ≤ 2 ^ (n.log2 - 52) := Nat.pow_le_pow_right (by omega) (by omega)
  have hproduct : 2 ^ 53 ≤ n / 2 ^ (n.log2 - 52) * 2 ^ (n.log2 - 52) := by
    calc 2 ^ 53 = 2 ^ 52 * 2 := by norm_num
      _ ≤ _ := Nat.mul_le_mul hsignificand hunit
  unfold round
  simp only
  split
  · exact hproduct
  · rw [Nat.add_mul]
    exact Nat.le_trans hproduct (Nat.le_add_right _ _)

theorem eq_of_round_eq {x y : Nat} (hx : x < 2 ^ 53) (h : round y = x) : y = x := by
  rcases Nat.lt_or_ge y (2 ^ 53) with hy | hy
  · exact (round_of_lt hy).symm.trans h
  · have := le_round hy
    omega

theorem spelling_round {x unit y : Nat} (h : spelling x unit = some y) : round y = x := by
  unfold spelling at h
  simp only at h
  cases hb : decide (round (x / unit * unit) = x) with
  | false =>
    cases ha : decide (round ((x / unit + 1) * unit) = x) with
    | false => simp [hb, ha] at h
    | true =>
      simp only [hb, ha, Option.some.injEq] at h
      rw [← h]
      exact of_decide_eq_true ha
  | true =>
    cases ha : decide (round ((x / unit + 1) * unit) = x) with
    | false =>
      simp only [hb, ha, Option.some.injEq] at h
      rw [← h]
      exact of_decide_eq_true hb
    | true =>
      simp only [hb, ha] at h
      split at h
      · rw [← Option.some.inj h]
        exact of_decide_eq_true hb
      · rw [← Option.some.inj h]
        exact of_decide_eq_true ha

/-- What is printed rounds to the number that it stands for. -/
theorem shortest_round {x : Nat} (hx : round x = x) (zeros : Nat) : round (shortest x zeros) = x := by
  induction zeros with
  | zero => exact hx
  | succ zeros ih =>
    cases h : spelling x (10 ^ (zeros + 1)) with
    | none => simpa [shortest, h] using ih
    | some y => simpa [shortest, h] using spelling_round h

theorem printNat_of_lt {n : Nat} (h : n < 2 ^ 53) : printNat n = n := by
  have hn := round_of_lt h
  apply eq_of_round_eq h
  rw [printNat, hn]
  exact shortest_round hn n.log2

/-- A safe integer is printed as it is. -/
theorem print_of_safe {i : Int} (h : i.natAbs < 2 ^ 53) : print i = i := by
  cases i with
  | ofNat n => exact congrArg Int.ofNat (printNat_of_lt h)
  | negSucc n => exact congrArg (fun m : Nat => -(m : Int)) (printNat_of_lt h)

example : print (2 ^ 63 - 1) = 9223372036854776000 := by decide

end Binary64
