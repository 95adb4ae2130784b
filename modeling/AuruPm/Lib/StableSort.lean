import Mathlib.Data.List.Nodup
import Mathlib.Data.List.Pairwise
import Mathlib.Tactic.Common

/-!
# Stable sorting

A stable sort by a comparison keeps elements that tie in the order in which it found them. Its
result is the same for every order of the input exactly when no two elements tie.
-/

namespace StableSort

set_option autoImplicit false

universe u

variable {A B : Type u}

def sortBy (cmp : A → A → Ordering) (xs : List A) : List A :=
  xs.mergeSort fun a b => (cmp a b).isLE

variable {cmp : A → A → Ordering} {xs ys : List A}

theorem not_sublist_swap {a b : A} (hnodup : xs.Nodup) (hab : [a, b].Sublist xs) :
    ¬ [b, a].Sublist xs := by
  induction xs with
  | nil => cases hab
  | cons x xs ih =>
    obtain ⟨hx, hrest⟩ := List.nodup_cons.mp hnodup
    intro hba
    cases hab with
    | cons _ hab =>
      cases hba with
      | cons _ hba => exact ih hrest hab hba
      | cons_cons _ hba => exact hx (hab.subset (by simp))
    | cons_cons _ hb =>
      cases hba with
      | cons _ hba => exact hx (hba.subset (by simp))
      | cons_cons _ _ => exact hx (hb.subset List.mem_cons_self)

variable (cmp) in
theorem sortBy_perm (xs : List A) : (sortBy cmp xs).Perm xs := List.mergeSort_perm xs _

variable [Std.TransCmp cmp]

variable (cmp) in
/-- Comparing by a key. -/
theorem transCmp_key (key : B → A) : Std.TransCmp fun a b => cmp (key a) (key b) where
  eq_swap := Std.OrientedCmp.eq_swap
  isLE_trans := Std.TransCmp.isLE_trans

theorem trans_isLE (a b c : A) (hab : (cmp a b).isLE = true) (hbc : (cmp b c).isLE = true) :
    (cmp a c).isLE = true := Std.TransCmp.isLE_trans hab hbc

theorem total_isLE (a b : A) : ((cmp a b).isLE || (cmp b a).isLE) = true := by
  have hswap : cmp b a = (cmp a b).swap := Std.OrientedCmp.eq_swap
  rw [hswap]
  cases cmp a b <;> rfl

theorem sortBy_sorted (xs : List A) : (sortBy cmp xs).Pairwise fun a b => (cmp a b).isLE = true :=
  List.pairwise_mergeSort trans_isLE total_isLE xs

/-- Two elements in order keep their order. -/
theorem pair_sublist_sortBy {a b : A} (hab : (cmp a b).isLE = true) (h : [a, b].Sublist xs) :
    [a, b].Sublist (sortBy cmp xs) := List.pair_sublist_mergeSort trans_isLE total_isLE hab h

theorem sortBy_eq_of_perm (hties : xs.Pairwise fun a b => cmp a b ≠ .eq) (h : xs.Perm ys) :
    sortBy cmp xs = sortBy cmp ys := by
  have hperm : (sortBy cmp xs).Perm (sortBy cmp ys) :=
    (sortBy_perm cmp xs).trans (h.trans (sortBy_perm cmp ys).symm)
  refine hperm.eq_of_pairwise ?_ (sortBy_sorted xs) (sortBy_sorted ys)
  intro a b ha hb hab hba
  have hab' : cmp a b = .eq := Std.OrientedCmp.isLE_antisymm hab hba
  have ha' : a ∈ xs := (sortBy_perm cmp xs).mem_iff.mp ha
  have hb' : b ∈ xs := h.mem_iff.mpr ((sortBy_perm cmp ys).mem_iff.mp hb)
  by_contra hne
  have : Std.Symm fun a b : A => cmp a b ≠ .eq :=
    ⟨fun _ _ hxy hyx => hxy (Std.OrientedCmp.eq_symm hyx)⟩
  exact hties.forall ha' hb' hne hab'

/-- Two elements that tie come out in the order in which they went in. -/
theorem sortBy_ne_reverse {a b : A} (hnodup : xs.Nodup) (hab : [a, b].Sublist xs)
    (htie : cmp a b = .eq) : sortBy cmp xs.reverse ≠ sortBy cmp xs := by
  intro heq
  have hba : [b, a].Sublist xs.reverse := List.reverse_sublist.mpr hab
  have htie' : cmp b a = .eq := Std.OrientedCmp.eq_symm htie
  have hforth : [a, b].Sublist (sortBy cmp xs) := pair_sublist_sortBy (by rw [htie]; rfl) hab
  have hback : [b, a].Sublist (sortBy cmp xs.reverse) :=
    pair_sublist_sortBy (by rw [htie']; rfl) hba
  rw [heq] at hback
  exact not_sublist_swap ((sortBy_perm cmp xs).nodup_iff.mpr hnodup) hforth hback

/-- Every order of the input gives one result exactly when no two elements tie. -/
theorem sortBy_perm_iff (hnodup : xs.Nodup) :
    (∀ ys, xs.Perm ys → sortBy cmp ys = sortBy cmp xs) ↔ xs.Pairwise fun a b => cmp a b ≠ .eq := by
  constructor
  · intro h
    rw [List.pairwise_iff_forall_sublist]
    intro a b hab htie
    exact sortBy_ne_reverse hnodup hab htie (h xs.reverse xs.reverse_perm.symm)
  · intro hties ys hperm
    exact (sortBy_eq_of_perm hties hperm).symm

end StableSort
