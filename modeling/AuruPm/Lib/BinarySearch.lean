import Mathlib.Data.List.Basic
import Mathlib.Order.Basic
import Mathlib.Tactic.Common

/-!
# Binary search

The halving loop over a list that a comparison splits into smaller elements, at most one equal
one and greater ones. It finds the equal element, or the place where one belongs.
-/

namespace BinarySearch

set_option autoImplicit false

universe u

variable {A : Type u} (cmp : A → Ordering)

/-- Halves the window of `size` elements from `base` on until one is left. -/
def narrow (xs : List A) (size base : Nat) : Nat :=
  if 1 < size then
    let half := size / 2
    let mid := base + half
    narrow xs (size - half) (if (xs[mid]?).map cmp = some .gt then base else mid)
  else base
termination_by size

/-- The index of an equal element, or the index at which one can be inserted. -/
def binarySearchBy (xs : List A) : Except Nat Nat :=
  let base := narrow cmp xs xs.length 0
  match (xs[base]?).map cmp with
  | none => .error 0
  | some .eq => .ok base
  | some .lt => .error (base + 1)
  | some .gt => .error base

variable {low : List A} (high : List A)

theorem map_getElem?_of_lt {i : Nat} (hi : i < low.length) :
    ∃ a ∈ low, ((low ++ high)[i]?).map cmp = some (cmp a) := by
  refine ⟨low[i], List.getElem_mem hi, ?_⟩
  rw [List.getElem?_append_left hi, List.getElem?_eq_getElem hi, Option.map_some]

variable {cmp} {high}

theorem map_getElem?_of_le (h : ∀ a ∈ high, cmp a = .gt) {i : Nat} (hi : low.length ≤ i)
    (hlt : i < (low ++ high).length) : ((low ++ high)[i]?).map cmp = some .gt := by
  have hlt' : i - low.length < high.length := by
    rw [List.length_append] at hlt
    omega
  rw [List.getElem?_append_right hi, List.getElem?_eq_getElem hlt', Option.map_some,
    h _ (List.getElem_mem hlt')]

/-- The last element that is not greater stays in the window. -/
theorem narrow_eq (hlow : ∀ a ∈ low, cmp a ≠ .gt) (hhigh : ∀ a ∈ high, cmp a = .gt)
    (size base : Nat) (hsize : 0 < size) (hfits : base + size ≤ (low ++ high).length)
    (hbase : base ≤ low.length - 1) (hend : low.length ≤ base + size) :
    narrow cmp (low ++ high) size base = low.length - 1 := by
  induction size using Nat.strongRecOn generalizing base with
  | ind size ih =>
    rw [narrow]
    split
    · rename_i hmany
      dsimp only
      by_cases hmid : base + size / 2 < low.length
      · obtain ⟨a, ha, hread⟩ := map_getElem?_of_lt cmp high hmid
        rw [hread, if_neg fun h => hlow a ha (Option.some.inj h)]
        apply ih <;> omega
      · rw [map_getElem?_of_le hhigh (by omega) (by omega), if_pos rfl]
        apply ih <;> omega
    · omega

theorem narrow_length (hlow : ∀ a ∈ low, cmp a ≠ .gt) (hhigh : ∀ a ∈ high, cmp a = .gt) :
    narrow cmp (low ++ high) (low ++ high).length 0 = low.length - 1 := by
  by_cases hempty : (low ++ high).length = 0
  · rw [hempty, narrow, if_neg (by omega)]
    rw [List.length_append] at hempty
    omega
  · apply narrow_eq hlow hhigh
    · omega
    · omega
    · omega
    · rw [List.length_append]
      omega

theorem binarySearchBy_found {x : A} (hlow : ∀ a ∈ low, cmp a = .lt) (hx : cmp x = .eq)
    (hhigh : ∀ a ∈ high, cmp a = .gt) :
    binarySearchBy cmp (low ++ x :: high) = .ok low.length := by
  have hnarrow : narrow cmp (low ++ x :: high) (low ++ x :: high).length 0 = low.length := by
    have hlow' : ∀ a ∈ low ++ [x], cmp a ≠ .gt := by
      intro a ha
      rcases List.mem_append.mp ha with ha | ha
      · rw [hlow a ha]
        exact nofun
      · rw [List.mem_singleton.mp ha, hx]
        exact nofun
    have hlast : (low ++ [x]).length - 1 = low.length := by
      rw [List.length_append, List.length_singleton, Nat.add_sub_cancel]
    have h := narrow_length hlow' hhigh
    rwa [List.append_assoc, List.singleton_append, hlast] at h
  simp only [binarySearchBy, hnarrow]
  rw [List.getElem?_append_right (Nat.le_refl _), Nat.sub_self, List.getElem?_cons_zero,
    Option.map_some, hx]

theorem binarySearchBy_missing (hlow : ∀ a ∈ low, cmp a = .lt) (hhigh : ∀ a ∈ high, cmp a = .gt) :
    binarySearchBy cmp (low ++ high) = .error low.length := by
  have hlow' : ∀ a ∈ low, cmp a ≠ .gt := by
    intro a ha
    rw [hlow a ha]
    exact nofun
  have hnarrow := narrow_length hlow' hhigh
  simp only [binarySearchBy, hnarrow]
  by_cases hempty : low = []
  · subst hempty
    cases high with
    | nil => rfl
    | cons a high =>
      simp only [List.nil_append, List.length_nil, Nat.zero_sub, List.getElem?_cons_zero,
        Option.map_some, hhigh a List.mem_cons_self]
  · have hpos : 0 < low.length := List.length_pos_iff.mpr hempty
    have hlast : low.length - 1 < low.length := Nat.sub_lt hpos Nat.one_pos
    obtain ⟨a, ha, hread⟩ := map_getElem?_of_lt cmp high hlast
    rw [hread, hlow a ha]
    exact congrArg Except.error (Nat.sub_add_cancel hpos)

end BinarySearch
