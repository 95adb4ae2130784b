import Mathlib.Data.List.Perm.Subperm
import Mathlib.Data.List.Sort

/-!
# The first entry of each key

A pass over a list that keeps the entries with new keys. Where the entries of one key look alike,
what is kept looks the same for every order of the list, and sorted by key it is one list.
-/

namespace FirstOf

set_option autoImplicit false

universe u v w

variable {A : Type u} {K : Type v} {P : Type w}

section Firsts
variable [DecidableEq K] (key : A → K)

def firsts : List K → List A → List A
  | _, [] => []
  | seen, a :: rest => if key a ∈ seen then firsts seen rest else a :: firsts (key a :: seen) rest

variable {key}

theorem mem_of_firsts {seen : List K} {l : List A} {a : A} (h : a ∈ firsts key seen l) :
    a ∈ l ∧ key a ∉ seen := by
  induction l generalizing seen with
  | nil => cases h
  | cons b rest ih =>
    rw [firsts] at h
    split at h
    · exact ⟨List.mem_cons_of_mem _ (ih h).1, (ih h).2⟩
    · rename_i hnew
      rcases List.mem_cons.mp h with rfl | h
      · exact ⟨List.mem_cons_self, hnew⟩
      · obtain ⟨hmem, hfresh⟩ := ih h
        exact ⟨List.mem_cons_of_mem _ hmem, fun hseen => hfresh (List.mem_cons_of_mem _ hseen)⟩

theorem exists_firsts {seen : List K} {l : List A} {a : A} (ha : a ∈ l) (hnew : key a ∉ seen) :
    ∃ b ∈ firsts key seen l, key b = key a := by
  induction l generalizing seen with
  | nil => cases ha
  | cons b rest ih =>
    rw [firsts]
    rcases List.mem_cons.mp ha with rfl | ha
    · rw [if_neg hnew]
      exact ⟨a, List.mem_cons_self, rfl⟩
    · split
      · exact ih ha hnew
      · by_cases hkey : key a = key b
        · exact ⟨b, List.mem_cons_self, hkey.symm⟩
        · have hlater : key a ∉ key b :: seen := fun hmem =>
            (List.mem_cons.mp hmem).elim hkey hnew
          obtain ⟨c, hc, hca⟩ := ih ha hlater
          exact ⟨c, List.mem_cons_of_mem _ hc, hca⟩

theorem firsts_concat (seen : List K) (l : List A) (a : A) :
    firsts key seen (l ++ [a]) =
      firsts key seen l ++ if key a ∈ seen ∨ key a ∈ l.map key then [] else [a] := by
  induction l generalizing seen with
  | nil => simp [firsts]
  | cons b rest ih =>
    rw [List.cons_append, firsts, firsts, ih, ih]
    by_cases hb : key b ∈ seen
    · rw [if_pos hb, if_pos hb]
      have hiff : key a ∈ seen ∨ key a ∈ (b :: rest).map key ↔ key a ∈ seen ∨ key a ∈ rest.map key := by
        rw [List.map_cons, List.mem_cons]
        constructor
        · rintro (h | h | h)
          · exact Or.inl h
          · exact Or.inl (h ▸ hb)
          · exact Or.inr h
        · exact fun h => h.imp_right Or.inr
      simp only [hiff]
    · rw [if_neg hb, if_neg hb]
      have hiff : key a ∈ seen ∨ key a ∈ (b :: rest).map key ↔
          key a ∈ key b :: seen ∨ key a ∈ rest.map key := by
        rw [List.map_cons, List.mem_cons, List.mem_cons]
        exact or_left_comm.trans or_assoc.symm
      simp only [hiff, List.cons_append]

theorem nodup_firsts (seen : List K) (l : List A) : ((firsts key seen l).map key).Nodup := by
  induction l generalizing seen with
  | nil => exact List.nodup_nil
  | cons a rest ih =>
    rw [firsts]
    split
    · exact ih seen
    · refine List.nodup_cons.mpr ⟨?_, ih _⟩
      intro hmem
      obtain ⟨b, hb, hkey⟩ := List.mem_map.mp hmem
      exact (mem_of_firsts hb).2 (hkey ▸ List.mem_cons_self)

end Firsts

/-- Entries of one key look alike. -/
def Alike (look : A → P) (key : P → K) (l : List A) : Prop :=
  ∀ a ∈ l, ∀ b ∈ l, key (look a) = key (look b) → look a = look b

section Look
variable {look : A → P} {key : P → K}

theorem Alike.perm {l l' : List A} (h : Alike look key l)
    (hperm : (l.map look).Perm (l'.map look)) : Alike look key l' := by
  intro a ha b hb hkey
  obtain ⟨a', ha', hlook⟩ := List.mem_map.mp (hperm.mem_iff.mpr (List.mem_map_of_mem ha))
  obtain ⟨b', hb', hlook'⟩ := List.mem_map.mp (hperm.mem_iff.mpr (List.mem_map_of_mem hb))
  rw [← hlook, ← hlook']
  apply h a' ha' b' hb'
  rw [hlook, hlook', hkey]

theorem nodup_map_of_key {l : List A} (h : (l.map fun a => key (look a)).Nodup) :
    (l.map look).Nodup := by
  apply List.Nodup.of_map key
  rw [List.map_map]
  exact h

section Perm
variable [DecidableEq K]

theorem mem_map_firsts_iff {l : List A} (h : Alike look key l) {x : P} :
    x ∈ (firsts (fun a => key (look a)) [] l).map look ↔ x ∈ l.map look := by
  constructor
  · intro hx
    obtain ⟨a, ha, rfl⟩ := List.mem_map.mp hx
    exact List.mem_map_of_mem (mem_of_firsts ha).1
  · intro hx
    obtain ⟨a, ha, rfl⟩ := List.mem_map.mp hx
    obtain ⟨b, hb, hkey⟩ : ∃ b ∈ firsts (fun a => key (look a)) [] l, key (look b) = key (look a) :=
      exists_firsts ha List.not_mem_nil
    rw [h a ha b (mem_of_firsts hb).1 hkey.symm]
    exact List.mem_map_of_mem hb

/-- What is kept looks the same for every order. -/
theorem firsts_perm {l l' : List A} (h : Alike look key l)
    (hperm : (l.map look).Perm (l'.map look)) :
    ((firsts (fun a => key (look a)) [] l).map look).Perm
      ((firsts (fun a => key (look a)) [] l').map look) := by
  apply (List.perm_ext_iff_of_nodup (nodup_map_of_key (nodup_firsts [] l))
    (nodup_map_of_key (nodup_firsts [] l'))).mpr
  intro x
  rw [mem_map_firsts_iff h, mem_map_firsts_iff (h.perm hperm)]
  exact hperm.mem_iff

end Perm

/-- Entries with keys of their own are one list once they are sorted. -/
theorem insertionSort_look [LinearOrder K] {l l' : List A}
    (hnodup : (l.map fun a => key (look a)).Nodup) (hperm : (l.map look).Perm (l'.map look)) :
    (l.insertionSort fun a b => key (look a) ≤ key (look b)).map look =
      (l'.insertionSort fun a b => key (look a) ≤ key (look b)).map look := by
  have hsorted : ∀ l : List A, ((l.insertionSort fun a b => key (look a) ≤ key (look b)).map
      look).Pairwise fun x y => key x ≤ key y := by
    intro l
    rw [List.pairwise_map]
    exact List.pairwise_insertionSort _ _
  have hsame : ∀ l : List A, ((l.insertionSort fun a b => key (look a) ≤ key (look b)).map
      look).Perm (l.map look) := fun l => (List.perm_insertionSort _ _).map look
  apply List.Perm.eq_of_pairwise _ (hsorted l) (hsorted l')
    ((hsame l).trans (hperm.trans (hsame l').symm))
  intro x y hx hy hxy hyx
  have hkeys : ((l.map look).map key).Nodup := by
    rw [List.map_map]
    exact hnodup
  apply List.inj_on_of_nodup_map hkeys ((hsame l).mem_iff.mp hx)
  · exact hperm.mem_iff.mpr ((hsame l').mem_iff.mp hy)
  · exact le_antisymm hxy hyx

theorem insertionSort_perm [LinearOrder K] {key : A → K} {l l' : List A}
    (hnodup : (l.map key).Nodup) (hperm : l.Perm l') :
    (l.insertionSort fun a b => key a ≤ key b) = l'.insertionSort fun a b => key a ≤ key b := by
  have h := @insertionSort_look A K A id key _ l l' hnodup (hperm.map id)
  rwa [List.map_id, List.map_id] at h

end Look

end FirstOf
