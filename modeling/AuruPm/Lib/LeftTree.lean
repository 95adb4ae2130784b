import Mathlib.Algebra.Order.Ring.Nat
import Mathlib.Tactic.Ring

/-!
# Left-heavy trees

A tree over numbered leaves in which a left subtree holds as large a power of two of leaves as
leaves one to its sibling. What has been completed of it after some leaves is a stack of full
subtrees, one for each binary digit of their number.
-/

set_option autoImplicit false

namespace LeftTree

variable {α β : Type}

/-- Nodes, with the value by which a parent knows its children. -/
structure Nodes (α β : Type) where
  value : α → β
  parent : β → β → α

/-- The largest power of two below a number of leaves. -/
def leftCount (n : Nat) : Nat := 2 ^ (n - 1).log2

theorem leftCount_pos (n : Nat) : 0 < leftCount n := Nat.two_pow_pos _

theorem leftCount_lt {n : Nat} (h : 1 < n) : leftCount n < n := by
  have hle := Nat.log2_self_le (n := n - 1) (by omega)
  rw [leftCount]
  omega

theorem leftCount_eq {k r : Nat} (hpos : 0 < r) (hle : r ≤ 2 ^ k) : leftCount (2 ^ k + r) = 2 ^ k := by
  have htwo := Nat.two_pow_pos k
  rw [leftCount, (Nat.log2_eq_iff (k := k) (by omega)).mpr ⟨by omega, ?_⟩]
  rw [Nat.pow_succ]
  omega

section Tree
variable (N : Nodes α β)

/-- The tree over `n` leaves from `start` on. -/
def subtree (leaf : Nat → α) (start n : Nat) : α :=
  if n ≤ 1 then leaf start
  else
    N.parent (N.value (subtree leaf start (leftCount n)))
      (N.value (subtree leaf (start + leftCount n) (n - leftCount n)))
termination_by n
decreasing_by
  · exact leftCount_lt (by omega)
  · have hpos := leftCount_pos n
    omega

/-- The values of the full subtrees over `m * 2 ^ k` leaves that hold `2 ^ k` leaves or more, from the
last one on. -/
def frontier (leaf : Nat → α) (k m : Nat) : List β :=
  if m = 0 then []
  else if m % 2 = 1 then
    N.value (subtree N leaf ((m - 1) * 2 ^ k) (2 ^ k)) :: frontier leaf (k + 1) (m / 2)
  else frontier leaf (k + 1) (m / 2)
termination_by m

variable {N} {leaf : Nat → α}

theorem subtree_leaf {start n : Nat} (h : n ≤ 1) : subtree N leaf start n = leaf start := by
  rw [subtree, if_pos h]

theorem subtree_node {start n : Nat} (h : ¬ n ≤ 1) :
    subtree N leaf start n =
      N.parent (N.value (subtree N leaf start (leftCount n)))
        (N.value (subtree N leaf (start + leftCount n) (n - leftCount n))) := by
  rw [subtree, if_neg h]

/-- A full subtree has its sibling to the right. -/
theorem subtree_pow_add {start k r : Nat} (hpos : 0 < r) (hle : r ≤ 2 ^ k) :
    subtree N leaf start (2 ^ k + r) =
      N.parent (N.value (subtree N leaf start (2 ^ k))) (N.value (subtree N leaf (start + 2 ^ k) r)) := by
  have htwo := Nat.two_pow_pos k
  rw [subtree_node (by omega), leftCount_eq hpos hle, Nat.add_sub_cancel_left]

theorem frontier_zero (k : Nat) : frontier N leaf k 0 = [] := by
  rw [frontier, if_pos rfl]

theorem frontier_even {k m : Nat} (h : m % 2 = 0) :
    frontier N leaf k m = frontier N leaf (k + 1) (m / 2) := by
  by_cases hm : m = 0
  · subst hm
    rw [frontier_zero, Nat.zero_div, frontier_zero]
  · rw [frontier, if_neg hm, if_neg (by omega)]

theorem frontier_odd {k m : Nat} (h : m % 2 = 1) :
    frontier N leaf k m =
      N.value (subtree N leaf ((m - 1) * 2 ^ k) (2 ^ k)) :: frontier N leaf (k + 1) (m / 2) := by
  rw [frontier, if_neg (by omega), if_pos h]

/-- After an even number of subtrees the next one is another entry. -/
theorem frontier_succ_even {k m : Nat} (h : m % 2 = 0) :
    frontier N leaf k (m + 1) =
      N.value (subtree N leaf (m * 2 ^ k) (2 ^ k)) :: frontier N leaf k m := by
  have hhalf : (m + 1) / 2 = m / 2 := by omega
  rw [frontier_odd (by omega), hhalf, Nat.add_sub_cancel, frontier_even h]

/-- After an odd number of subtrees the next one completes a subtree of twice the size. -/
theorem frontier_succ_odd {k m : Nat} (h : m % 2 = 1) :
    frontier N leaf k (m + 1) = frontier N leaf (k + 1) (m / 2 + 1) := by
  have hhalf : (m + 1) / 2 = m / 2 + 1 := by omega
  rw [frontier_even (by omega), hhalf]

theorem subtree_double {k m : Nat} (h : m % 2 = 1) :
    N.parent (N.value (subtree N leaf ((m - 1) * 2 ^ k) (2 ^ k)))
        (N.value (subtree N leaf (m * 2 ^ k) (2 ^ k))) =
      subtree N leaf (m / 2 * 2 ^ (k + 1)) (2 ^ (k + 1)) := by
  obtain ⟨i, rfl⟩ : ∃ i, m = 2 * i + 1 := ⟨m / 2, by omega⟩
  have hhalf : (2 * i + 1) / 2 = i := by omega
  have hstart : i * 2 ^ (k + 1) = 2 * i * 2 ^ k := by
    rw [Nat.pow_succ]
    ring
  have hnext : (2 * i + 1) * 2 ^ k = 2 * i * 2 ^ k + 2 ^ k := by
    ring
  have hsize : 2 ^ (k + 1) = 2 ^ k + 2 ^ k := by
    rw [Nat.pow_succ]
    omega
  rw [hhalf, hstart, hsize, subtree_pow_add (Nat.two_pow_pos k) (Nat.le_refl _), hnext,
    Nat.add_sub_cancel]

/-- The last leaves, joined with the stack from its top on, are the whole tree. -/
theorem foldl_frontier {k m r : Nat} (hpos : 0 < r) (hle : r ≤ 2 ^ k) :
    (frontier N leaf k m).foldl (fun right left => N.parent left (N.value right))
        (subtree N leaf (m * 2 ^ k) r) =
      subtree N leaf 0 (m * 2 ^ k + r) := by
  induction m using Nat.strong_induction_on generalizing k r with
  | _ m ih =>
    by_cases hm : m = 0
    · subst hm
      rw [frontier_zero, List.foldl_nil, Nat.zero_mul, Nat.zero_add]
    · have hdouble : 2 ^ (k + 1) = 2 ^ k + 2 ^ k := by
        rw [Nat.pow_succ]
        omega
      by_cases hodd : m % 2 = 1
      · obtain ⟨i, rfl⟩ : ∃ i, m = 2 * i + 1 := ⟨m / 2, by omega⟩
        have hhalf : (2 * i + 1) / 2 = i := by omega
        have hstart : 2 * i * 2 ^ k = i * 2 ^ (k + 1) := by
          rw [Nat.pow_succ]
          ring
        have hnext : (2 * i + 1) * 2 ^ k = 2 * i * 2 ^ k + 2 ^ k := by
          ring
        rw [frontier_odd hodd, List.foldl_cons, hhalf, Nat.add_sub_cancel, hnext,
          ← subtree_pow_add hpos hle, hstart, ih i (by omega) (by omega) (by omega), Nat.add_assoc]
      · obtain ⟨i, rfl⟩ : ∃ i, m = 2 * i := ⟨m / 2, by omega⟩
        have hhalf : 2 * i / 2 = i := by omega
        have hstart : 2 * i * 2 ^ k = i * 2 ^ (k + 1) := by
          rw [Nat.pow_succ]
          ring
        rw [frontier_even (by omega), hhalf, hstart]
        exact ih i (by omega) hpos (by omega)

/-- There is an entry for a binary digit at most. -/
theorem length_frontier {j k m : Nat} (h : m < 2 ^ j) : (frontier N leaf k m).length ≤ j := by
  induction j generalizing k m with
  | zero =>
    obtain rfl : m = 0 := by omega
    rw [frontier_zero]
    exact Nat.le_refl 0
  | succ j ih =>
    rw [Nat.pow_succ] at h
    by_cases hodd : m % 2 = 1
    · rw [frontier_odd hodd, List.length_cons]
      exact Nat.succ_le_succ (ih (by omega))
    · rw [frontier_even (by omega)]
      exact Nat.le_succ_of_le (ih (by omega))

/-! Only the leaves that a tree is over count. -/

theorem subtree_congr {leaf' : Nat → α} {start n : Nat} (hpos : 0 < n)
    (h : ∀ i, start ≤ i → i < start + n → leaf i = leaf' i) :
    subtree N leaf start n = subtree N leaf' start n := by
  induction n using Nat.strong_induction_on generalizing start with
  | _ n ih =>
    by_cases hone : n ≤ 1
    · rw [subtree_leaf hone, subtree_leaf hone]
      exact h start (Nat.le_refl _) (by omega)
    · have hcount := leftCount_pos n
      have hless := leftCount_lt (n := n) (by omega)
      rw [subtree_node hone, subtree_node hone,
        ih _ hless hcount fun i hi hlt => h i hi (by omega),
        ih _ (by omega) (by omega) fun i hi hlt => h i (by omega) (by omega)]

theorem frontier_congr {leaf' : Nat → α} {k m : Nat} (h : ∀ i < m * 2 ^ k, leaf i = leaf' i) :
    frontier N leaf k m = frontier N leaf' k m := by
  induction m using Nat.strong_induction_on generalizing k with
  | _ m ih =>
    by_cases hm : m = 0
    · subst hm
      rw [frontier_zero, frontier_zero]
    · have hhalf : frontier N leaf (k + 1) (m / 2) = frontier N leaf' (k + 1) (m / 2) := by
        refine ih (m / 2) (by omega) fun i hi => h i (Nat.lt_of_lt_of_le hi ?_)
        have hmul : m / 2 * 2 ^ (k + 1) = m / 2 * 2 * 2 ^ k := by
          rw [Nat.pow_succ]
          ring
        rw [hmul]
        exact Nat.mul_le_mul_right _ (by omega)
      by_cases hodd : m % 2 = 1
      · have hlast : (m - 1) * 2 ^ k + 2 ^ k = m * 2 ^ k := by
          obtain ⟨i, rfl⟩ : ∃ i, m = i + 1 := ⟨m - 1, by omega⟩
          rw [Nat.add_sub_cancel, Nat.succ_mul]
        rw [frontier_odd hodd, frontier_odd hodd, hhalf,
          subtree_congr (Nat.two_pow_pos k) fun i _ hi => h i (by omega)]
      · have heven : m % 2 = 0 := by omega
        rw [frontier_even heven, frontier_even heven, hhalf]

end Tree

end LeftTree
