import Mathlib.Data.List.TakeDrop

/-!
# Absorbing an input piece by piece

A loop that hands a part of its input to a state until there is none left, and a text cut into
pieces of one size of which the last is not known to be complete before more arrives.
-/

set_option autoImplicit false

namespace Absorb

variable {α σ : Type}

/-- While there is input, a step takes some of it. Without fuel the loop fails. -/
def absorb (step : σ → List α → Option (σ × List α)) : Nat → σ → List α → Option σ
  | _, s, [] => some s
  | 0, _, _ :: _ => none
  | fuel + 1, s, a :: input => (step s (a :: input)).bind fun next => absorb step fuel next.1 next.2

/-- A loop over a state that its input determines ends with the state of all of it. -/
theorem absorb_eq {step : σ → List α → Option (σ × List α)} {state : List α → σ} {bound : Nat}
    (hstep : ∀ l input, input ≠ [] → (l ++ input).length ≤ bound →
      ∃ n, 0 < n ∧ step (state l) input = some (state (l ++ input.take n), input.drop n))
    {fuel : Nat} {l input : List α} (hfuel : input.length ≤ fuel)
    (hbound : (l ++ input).length ≤ bound) :
    absorb step fuel (state l) input = some (state (l ++ input)) := by
  induction fuel generalizing l input with
  | zero =>
    obtain rfl := List.length_eq_zero_iff.mp (Nat.le_zero.mp hfuel)
    rw [absorb, List.append_nil]
  | succ fuel ih =>
    cases input with
    | nil => rw [absorb, List.append_nil]
    | cons a input =>
      obtain ⟨n, hpos, h⟩ := hstep l (a :: input) (List.cons_ne_nil a input) hbound
      have hsplit : l ++ (a :: input).take n ++ (a :: input).drop n = l ++ a :: input := by
        rw [List.append_assoc, List.take_append_drop]
      have hshort : ((a :: input).drop n).length ≤ fuel := by
        rw [List.length_drop]
        omega
      rw [absorb, h, Option.bind_some, ih hshort (by rwa [hsplit]), hsplit]

/-! Pieces of one size. -/

/-- The number of pieces before the last one. -/
def last (size length : Nat) : Nat := (length - 1) / size

def piece (size : Nat) (l : List α) (i : Nat) : List α := (l.drop (size * i)).take size

variable {size : Nat}

theorem last_le (size length : Nat) : size * last size length ≤ length := by
  have hle := Nat.mul_div_le (length - 1) size
  rw [last]
  omega

theorem sub_last_le (hsize : 0 < size) (length : Nat) : length - size * last size length ≤ size := by
  have hlt := Nat.lt_mul_div_succ (length - 1) hsize
  rw [Nat.mul_add, Nat.mul_one] at hlt
  rw [last]
  omega

/-- The last piece has room for this much more. -/
theorem last_add {length n : Nat} (hsize : 0 < size)
    (h : length + n ≤ size * last size length + size) : last size (length + n) = last size length := by
  have hle := last_le size length
  have hzero : length = 0 → last size length = 0 := by
    rintro rfl
    exact Nat.zero_div size
  rw [last, Nat.div_eq_iff hsize]
  rcases Nat.eq_zero_or_pos length with h0 | hpos
  · rw [hzero h0] at h ⊢
    omega
  · have hmul : size * last size length ≤ length - 1 := Nat.mul_div_le (length - 1) size
    rw [Nat.mul_comm] at hmul h
    omega

/-- After a full piece there is another one. -/
theorem last_add_full {length n : Nat} (hsize : 0 < size)
    (hfull : length = size * last size length + size) (hpos : 0 < n) (hle : n ≤ size) :
    last size (length + n) = last size length + 1 := by
  rw [last, Nat.div_eq_iff hsize, Nat.add_mul, Nat.one_mul, Nat.mul_comm (last size length)]
  omega

theorem length_piece (l : List α) (i : Nat) : (piece size l i).length = min size (l.length - size * i) := by
  rw [piece, List.length_take, List.length_drop]

/-- What follows does not change a piece that is full. -/
theorem piece_append {l : List α} {i : Nat} (h : size * i + size ≤ l.length) (r : List α) :
    piece size (l ++ r) i = piece size l i := by
  rw [piece, piece, List.drop_append_of_le_length (by omega), List.take_append_of_le_length]
  rw [List.length_drop]
  omega

/-- The last piece is what the pieces before it leave. -/
theorem piece_last (hsize : 0 < size) (l : List α) :
    piece size l (last size l.length) = l.drop (size * last size l.length) := by
  rw [piece, List.take_of_length_le]
  rw [List.length_drop]
  exact sub_last_le hsize l.length

end Absorb
