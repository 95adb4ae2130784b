import AuruPm.Lib.SortedAssoc
import Mathlib.Data.List.Nodup

/-!
# Moving entries of a map to new keys

Some entries are taken out under their old keys and put back, changed, under new ones. If the
new keys are distinct and none was in use, every entry is found again at its new place, and
nothing else is there.
-/

namespace Rekey

set_option autoImplicit false

open SortedAssoc

universe u v

variable {K : Type u} {V : Type v} [LinearOrder K]

/-- Every entry is at its new place, changed as `R` allows, and there are no others. -/
structure Moved (place : K → K) (R : V → V → Prop) (m m' : List (K × V)) : Prop where
  inj : ∀ k k', (get? m k).isSome → (get? m k').isSome → place k = place k' → k = k'
  moved : ∀ k v, get? m k = some v → ∃ v', get? m' (place k) = some v' ∧ R v v'
  only : ∀ k' v', get? m' k' = some v' → ∃ k v, get? m k = some v ∧ place k = k' ∧ R v v'

variable {place : K → K} {R : V → V → Prop} {m m' : List (K × V)}

theorem Moved.refl (hplace : ∀ k, (get? m k).isSome → place k = k)
    (hR : ∀ k v, get? m k = some v → R v v) : Moved place R m m where
  inj k k' hk hk' heq := by rwa [hplace k hk, hplace k' hk'] at heq
  moved k v hv := ⟨v, by rw [hplace k (Option.isSome_of_eq_some hv), hv], hR k v hv⟩
  only k v hv := ⟨k, v, hv, hplace k (Option.isSome_of_eq_some hv), hR k v hv⟩

/-- Takes the old keys out and puts the new entries in. -/
def rekey (olds : List K) (news : List (K × V)) (m : List (K × V)) : List (K × V) :=
  news.foldl (fun m e => insert e.1 e.2 m) (olds.foldl (fun m k => erase k m) m)

theorem get?_foldl_erase (olds : List K) (m : List (K × V)) (k : K) :
    get? (olds.foldl (fun m k => erase k m) m) k = if k ∈ olds then none else get? m k := by
  induction olds generalizing m with
  | nil => simp
  | cons old olds ih =>
    rw [List.foldl_cons, ih, get?_erase]
    by_cases hk : k = old
    · simp [hk]
    · simp [hk]

theorem get?_foldl_insert_of_notMem {news : List (K × V)} {k : K} (h : k ∉ news.map Prod.fst)
    (m : List (K × V)) : get? (news.foldl (fun m e => insert e.1 e.2 m) m) k = get? m k := by
  induction news generalizing m with
  | nil => rfl
  | cons e news ih =>
    simp only [List.map_cons, List.mem_cons, not_or] at h
    rw [List.foldl_cons, ih h.2, get?_insert, if_neg h.1]

theorem get?_foldl_insert_of_mem {news : List (K × V)} (hnodup : (news.map Prod.fst).Nodup)
    {k : K} {v : V} (h : (k, v) ∈ news) (m : List (K × V)) :
    get? (news.foldl (fun m e => insert e.1 e.2 m) m) k = some v := by
  induction news generalizing m with
  | nil => cases h
  | cons e news ih =>
    obtain ⟨hnew, hrest⟩ := List.nodup_cons.mp hnodup
    rw [List.foldl_cons]
    rcases List.mem_cons.mp h with rfl | h
    · rw [get?_foldl_insert_of_notMem hnew, get?_insert, if_pos rfl]
    · exact ih hrest h _

/-- In a list with distinct keys every entry is found. -/
theorem get?_of_mem_of_nodup (hnodup : (m.map Prod.fst).Nodup) {k : K} {v : V} (h : (k, v) ∈ m) :
    get? m k = some v := by
  induction m with
  | nil => cases h
  | cons e m ih =>
    obtain ⟨hnew, hrest⟩ := List.nodup_cons.mp hnodup
    rcases List.mem_cons.mp h with rfl | h
    · exact get?_cons_self k v m
    · have hne : k ≠ e.1 := fun hk => hnew (hk ▸ List.mem_map_of_mem h)
      rw [get?_cons_of_ne hne]
      exact ih hrest h

section Places
variable {olds : List K} {news : List (K × V)}

theorem get?_rekey_old (hkeys : news.map Prod.fst = olds.map place)
    (hnodup : (olds.map place).Nodup) {k : K} {v : V} (h : (k, v) ∈ news) :
    get? (rekey olds news m) k = some v :=
  get?_foldl_insert_of_mem (hkeys ▸ hnodup) h _

theorem get?_rekey_rest (hkeys : news.map Prod.fst = olds.map place) {k : K}
    (hold : k ∉ olds) (hnew : k ∉ olds.map place) : get? (rekey olds news m) k = get? m k := by
  rw [rekey, get?_foldl_insert_of_notMem (hkeys ▸ hnew), get?_foldl_erase, if_neg hold]

theorem moved_rekey (hkeys : news.map Prod.fst = olds.map place)
    (hnodup : (olds.map place).Nodup) (hfree : ∀ k ∈ olds, get? m (place k) = none)
    (hkept : ∀ k, (get? m k).isSome → k ∉ olds → place k = k)
    (hin : ∀ k ∈ olds, ∃ v v', get? m k = some v ∧ (place k, v') ∈ news ∧ R v v')
    (hrest : ∀ k v, get? m k = some v → k ∉ olds → R v v) :
    Moved place R m (rekey olds news m) := by
  have hnew : ∀ k, (get? m k).isSome → k ∉ olds.map place := by
    intro k hk hmem
    obtain ⟨old, hold, rfl⟩ := List.mem_map.mp hmem
    rw [hfree old hold] at hk
    cases hk
  refine ⟨?_, ?_, ?_⟩
  · intro k k' hk hk' heq
    by_cases hold : k ∈ olds
    · by_cases hold' : k' ∈ olds
      · exact List.inj_on_of_nodup_map hnodup hold hold' heq
      · rw [hkept k' hk' hold'] at heq
        exact absurd (List.mem_map.mpr ⟨k, hold, heq⟩) (hnew k' hk')
    · by_cases hold' : k' ∈ olds
      · rw [hkept k hk hold] at heq
        exact absurd (List.mem_map.mpr ⟨k', hold', heq.symm⟩) (hnew k hk)
      · rwa [hkept k hk hold, hkept k' hk' hold'] at heq
  · intro k v hv
    have hk := Option.isSome_of_eq_some hv
    by_cases hold : k ∈ olds
    · obtain ⟨w, v', hw, hmem, hR⟩ := hin k hold
      rw [hv] at hw
      cases hw
      exact ⟨v', get?_rekey_old hkeys hnodup hmem, hR⟩
    · rw [hkept k hk hold, get?_rekey_rest hkeys hold (hnew k hk)]
      exact ⟨v, hv, hrest k v hv hold⟩
  · intro k' v' hv'
    by_cases hmem : k' ∈ olds.map place
    · obtain ⟨k, hold, rfl⟩ := List.mem_map.mp hmem
      obtain ⟨v, w, hv, hw, hR⟩ := hin k hold
      rw [get?_rekey_old hkeys hnodup hw] at hv'
      cases hv'
      exact ⟨k, v, hv, rfl, hR⟩
    · by_cases hold : k' ∈ olds
      · rw [rekey, get?_foldl_insert_of_notMem (hkeys ▸ hmem), get?_foldl_erase, if_pos hold] at hv'
        cases hv'
      · rw [get?_rekey_rest hkeys hold hmem] at hv'
        exact ⟨k', v', hv', hkept k' (Option.isSome_of_eq_some hv') hold, hrest k' v' hv' hold⟩

end Places

end Rekey
