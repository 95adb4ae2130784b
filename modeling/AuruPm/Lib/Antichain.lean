import Mathlib.Data.List.Pairwise
import Mathlib.Order.RelClasses

/-!
# Least elements as an antichain

A list that takes in elements one by one and keeps only those that no other is below. What it
keeps depends on the elements alone, not on their order.
-/

namespace Antichain

set_option autoImplicit false

universe u

variable {A : Type u} (r : A → A → Prop)

section Add
variable [DecidableRel r]

/-- An element that is covered adds nothing; one that is not drops those that it covers. -/
def add (x : A) (kept : List A) : List A :=
  if kept.any fun y => r y x then kept else (kept.filter fun y => ¬ r x y) ++ [x]

end Add

/-- What is kept of the given elements. -/
structure Keeps (given kept : List A) : Prop where
  subset : ∀ y ∈ kept, y ∈ given
  covers : ∀ x ∈ given, ∃ y ∈ kept, r y x
  apart : kept.Pairwise fun a b => ¬ r a b ∧ ¬ r b a

theorem Keeps.nil : Keeps r [] [] := ⟨nofun, nofun, List.Pairwise.nil⟩

variable {r} {given kept : List A}

theorem Keeps.eq_of_rel (h : Keeps r given kept) {a b : A} (ha : a ∈ kept) (hb : b ∈ kept)
    (hab : r a b) : a = b := by
  by_contra hne
  have hsymm : Std.Symm fun x y => ¬ r x y ∧ ¬ r y x := ⟨fun _ _ h => ⟨h.2, h.1⟩⟩
  exact (h.apart.forall ha hb hne).1 hab

section Order
variable [IsPartialOrder A r]

/-- The kept elements are the least of the given ones. -/
theorem Keeps.mem_iff (h : Keeps r given kept) {x : A} :
    x ∈ kept ↔ x ∈ given ∧ ∀ z ∈ given, r z x → z = x := by
  constructor
  · intro hx
    refine ⟨h.subset x hx, ?_⟩
    intro z hz hzx
    obtain ⟨w, hw, hwz⟩ := h.covers z hz
    have hwx : w = x := h.eq_of_rel hw hx (trans_of r hwz hzx)
    exact antisymm_of r hzx (hwx ▸ hwz)
  · rintro ⟨hx, hleast⟩
    obtain ⟨w, hw, hwx⟩ := h.covers x hx
    exact hleast w (h.subset w hw) hwx ▸ hw

/-- Two lists of the same elements keep the same. -/
theorem Keeps.same {given' kept' : List A} (h : Keeps r given kept) (h' : Keeps r given' kept')
    (hsame : ∀ x, x ∈ given ↔ x ∈ given') (x : A) : x ∈ kept ↔ x ∈ kept' := by
  simp only [h.mem_iff, h'.mem_iff, hsame]

variable [DecidableRel r]

theorem Keeps.add (h : Keeps r given kept) (x : A) :
    Keeps r (given ++ [x]) (Antichain.add r x kept) := by
  rw [Antichain.add]
  split
  · rename_i hany
    obtain ⟨y, hy, hyx⟩ := List.any_eq_true.mp hany
    refine ⟨fun z hz => List.mem_append_left _ (h.subset z hz), ?_, h.apart⟩
    intro z hz
    rcases List.mem_append.mp hz with hz | hz
    · exact h.covers z hz
    · exact ⟨y, hy, List.mem_singleton.mp hz ▸ of_decide_eq_true hyx⟩
  · rename_i hany
    have hnew : ∀ y ∈ kept, ¬ r y x := fun y hy hyx =>
      hany (List.any_eq_true.mpr ⟨y, hy, decide_eq_true hyx⟩)
    refine ⟨?_, ?_, ?_⟩
    · intro z hz
      rcases List.mem_append.mp hz with hz | hz
      · exact List.mem_append_left _ (h.subset z (List.mem_filter.mp hz).1)
      · exact List.mem_append_right _ hz
    · intro z hz
      rcases List.mem_append.mp hz with hz | hz
      · obtain ⟨y, hy, hyz⟩ := h.covers z hz
        by_cases hxy : r x y
        · exact ⟨x, List.mem_append_right _ (List.mem_singleton_self x), trans_of r hxy hyz⟩
        · refine ⟨y, List.mem_append_left _ (List.mem_filter.mpr ⟨hy, ?_⟩), hyz⟩
          exact decide_eq_true hxy
      · refine ⟨x, List.mem_append_right _ (List.mem_singleton_self x), ?_⟩
        rw [List.mem_singleton.mp hz]
        exact refl_of r x
    · refine List.pairwise_append.mpr ⟨h.apart.filter _, List.pairwise_singleton _ _, ?_⟩
      intro a ha b hb
      obtain ⟨hkept, hxa⟩ := List.mem_filter.mp ha
      rw [List.mem_singleton.mp hb]
      exact ⟨hnew a hkept, of_decide_eq_true hxa⟩

end Order

end Antichain
