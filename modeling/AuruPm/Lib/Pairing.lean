import AuruPm.Lib.SortedAssoc
import Mathlib.Data.Multiset.UnionInter
import Mathlib.Data.List.Perm.Lattice

/-!
# Pairing two collections

Maps are paired key by key. Lists are paired greedily, each entry of one with the first that is
alike in the other: where being alike is having one key, the number of pairs is the size of the
intersection of the keys, so it does not depend on which list is gone through.
-/

namespace Pairing

set_option autoImplicit false

open SortedAssoc

universe u v w

section Greedy
variable {A : Type u} (alike : A → A → Bool)

/-- What is left of both lists, with the number of pairs. -/
def pairOff : List A → List A → List A × List A × Nat
  | [], right => ([], right, 0)
  | a :: left, right =>
    match right.findIdx? fun b => alike b a with
    | some index =>
      let rest := pairOff left (right.eraseIdx index)
      (rest.1, rest.2.1, rest.2.2 + 1)
    | none =>
      let rest := pairOff left right
      (a :: rest.1, rest.2.1, rest.2.2)

theorem pairOff_left (left right : List A) :
    (pairOff alike left right).1.length + (pairOff alike left right).2.2 = left.length := by
  induction left generalizing right with
  | nil => rfl
  | cons a left ih =>
    rw [pairOff]
    split
    · rename_i index _
      have := ih (right.eraseIdx index)
      simp only [List.length_cons]
      omega
    · have := ih right
      simp only [List.length_cons]
      omega

theorem pairOff_right (left right : List A) :
    (pairOff alike left right).2.1.length + (pairOff alike left right).2.2 = right.length := by
  induction left generalizing right with
  | nil => rfl
  | cons a left ih =>
    rw [pairOff]
    split
    · rename_i index hindex
      have hlt : index < right.length := (List.findIdx?_eq_some_iff_getElem.mp hindex).1
      have := ih (right.eraseIdx index)
      rw [List.length_eraseIdx_of_lt hlt] at this
      simp only
      omega
    · exact ih right

section Keys
variable {alike} {K : Type v} [DecidableEq K] {key : A → Option K}

def keys (key : A → Option K) (list : List A) : Multiset K := (list.filterMap key : List K)

theorem keys_eraseIdx {right : List A} {index : Nat} (hlt : index < right.length) {k : K}
    (hk : key right[index] = some k) : keys key (right.eraseIdx index) = (keys key right).erase k := by
  have hperm : right.Perm (right[index] :: right.eraseIdx index) :=
    (List.getElem_cons_eraseIdx_perm hlt).symm
  have hkeys : keys key right = k ::ₘ keys key (right.eraseIdx index) := by
    have := hperm.filterMap key
    rw [List.filterMap_cons_some hk] at this
    exact Multiset.coe_eq_coe.mpr this
  rw [hkeys, Multiset.erase_cons_head]

/-- As many pairs as keys in common. -/
theorem pairOff_pairs (halike : ∀ a b, alike a b = true ↔ ∃ k, key a = some k ∧ key b = some k)
    (left right : List A) :
    (pairOff alike left right).2.2 = (keys key left ∩ keys key right).card := by
  induction left generalizing right with
  | nil => rw [pairOff, keys, List.filterMap_nil, Multiset.coe_nil, Multiset.zero_inter]; rfl
  | cons a left ih =>
    rw [pairOff]
    split
    · rename_i index hindex
      obtain ⟨hlt, hmatch, _⟩ := List.findIdx?_eq_some_iff_getElem.mp hindex
      obtain ⟨k, hright, ha⟩ := (halike _ _).mp hmatch
      have hmem : k ∈ keys key right :=
        Multiset.mem_coe.mpr (List.mem_filterMap.mpr ⟨_, List.getElem_mem hlt, hright⟩)
      have hleft : keys key (a :: left) = k ::ₘ keys key left := by
        rw [keys, List.filterMap_cons_some ha]
        rfl
      rw [hleft, Multiset.cons_inter_of_pos _ hmem, Multiset.card_cons, ← keys_eraseIdx hlt hright, ← ih]
    · rename_i hnone
      cases ha : key a with
      | none =>
        have hleft : keys key (a :: left) = keys key left := by
          rw [keys, List.filterMap_cons_none ha]
          rfl
        rw [hleft]
        exact ih right
      | some k =>
        have hleft : keys key (a :: left) = k ::ₘ keys key left := by
          rw [keys, List.filterMap_cons_some ha]
          rfl
        have hnot : k ∉ keys key right := by
          intro hmem
          obtain ⟨b, hb, hkey⟩ := List.mem_filterMap.mp (Multiset.mem_coe.mp hmem)
          have hapart : alike b a = false := List.findIdx?_eq_none_iff.mp hnone b hb
          rw [(halike b a).mpr ⟨k, hkey, ha⟩] at hapart
          cases hapart
        rw [hleft, Multiset.cons_inter_of_neg _ hnot]
        exact ih right

theorem pairOff_comm (halike : ∀ a b, alike a b = true ↔ ∃ k, key a = some k ∧ key b = some k)
    (left right : List A) :
    (pairOff alike left right).2.2 = (pairOff alike right left).2.2 := by
  rw [pairOff_pairs halike, pairOff_pairs halike, Multiset.inter_comm]

end Keys

end Greedy

section Maps
variable {K : Type u} {V : Type v} [LinearOrder K]

/-- The entries under one key in both maps. -/
def matched (m m' : List (K × V)) : List (K × V × V) :=
  m'.filterMap fun e => (get? m e.1).map fun v => (e.1, v, e.2)

/-- The entries of the second map whose key the first lacks. -/
def unmatched (m m' : List (K × V)) : List V :=
  (m'.filter fun e => (get? m e.1).isNone).map Prod.snd

theorem length_matched_add (m m' : List (K × V)) :
    (matched m m').length + (unmatched m m').length = m'.length := by
  induction m' with
  | nil => rfl
  | cons e rest ih =>
    cases h : get? m e.1 with
    | none =>
      simp [matched, unmatched, h] at ih ⊢
      omega
    | some v =>
      simp [matched, unmatched, h] at ih ⊢
      omega

theorem mem_matched {m m' : List (K × V)} (hm' : Sorted m') {k : K} {v v' : V} :
    (k, v, v') ∈ matched m m' ↔ get? m k = some v ∧ get? m' k = some v' := by
  constructor
  · intro h
    obtain ⟨⟨k', w⟩, hmem, hw⟩ := List.mem_filterMap.mp h
    obtain ⟨u, hu, heq⟩ := Option.map_eq_some_iff.mp hw
    cases heq
    exact ⟨hu, get?_of_mem hm' hmem⟩
  · rintro ⟨hv, hv'⟩
    exact List.mem_filterMap.mpr ⟨(k, v'), mem_of_get? hv', by simp [hv]⟩

theorem nodup_matched {m m' : List (K × V)} (hm' : Sorted m') : (matched m m').Nodup := by
  have hsub : ((matched m m').map Prod.fst).Sublist (m'.map Prod.fst) := by
    clear hm'
    induction m' with
    | nil => exact List.Sublist.slnil
    | cons e rest ih =>
      cases h : get? m e.1 with
      | none => simpa [matched, h] using ih.cons e.1
      | some v => simpa [matched, h] using ih.cons_cons e.1
  have hkeys : (m'.map Prod.fst).Nodup := List.pairwise_map.mpr (hm'.imp ne_of_lt)
  exact (hsub.nodup hkeys).of_map Prod.fst

/-- Exchanging the maps exchanges the entries. -/
theorem matched_swap {m m' : List (K × V)} (hm : Sorted m) (hm' : Sorted m') :
    ((matched m m').map fun e => (e.1, e.2.2, e.2.1)).Perm (matched m' m) := by
  have hswap : Function.Injective fun e : K × V × V => (e.1, e.2.2, e.2.1) := by
    rintro ⟨k, v, v'⟩ ⟨l, w, w'⟩ h
    cases h
    rfl
  apply (List.perm_ext_iff_of_nodup ((nodup_matched hm').map hswap) (nodup_matched hm)).mpr
  rintro ⟨k, v, v'⟩
  rw [mem_matched hm]
  constructor
  · intro h
    obtain ⟨⟨l, w, w'⟩, hmem, heq⟩ := List.mem_map.mp h
    cases heq
    exact ((mem_matched hm').mp hmem).symm
  · intro h
    exact List.mem_map.mpr ⟨(k, v', v), (mem_matched hm').mpr h.symm, rfl⟩

/-- What does not depend on the order of a pair is counted alike. -/
theorem countP_matched_swap {m m' : List (K × V)} (hm : Sorted m) (hm' : Sorted m')
    {p : V → V → Bool} (hp : ∀ v v', p v v' = p v' v) :
    (matched m m').countP (fun e => p e.2.1 e.2.2) = (matched m' m).countP fun e => p e.2.1 e.2.2 := by
  rw [← (matched_swap hm hm').countP_eq, List.countP_map]
  exact List.countP_congr fun e _ => by rw [Function.comp, hp]

theorem length_matched_swap {m m' : List (K × V)} (hm : Sorted m) (hm' : Sorted m') :
    (matched m m').length = (matched m' m).length := by
  rw [← (matched_swap hm hm').length_eq, List.length_map]

/-- A map consists of the entries that are named, and the others. -/
theorem perm_named {L : Type w} {m : List (K × V)} (hm : Sorted m) {named : List (L × K)}
    (hnodup : (named.map Prod.snd).Nodup) (hin : ∀ e ∈ named, (get? m e.2).isSome = true) :
    m.Perm ((named.filterMap fun e => (get? m e.2).map fun v => (e.2, v)) ++
      m.filter fun e => e.1 ∉ named.map Prod.snd) := by
  have hkeys : (named.filterMap fun e => (get? m e.2).map fun v => (e.2, v)).map Prod.fst =
      named.map Prod.snd := by
    clear hnodup
    induction named with
    | nil => rfl
    | cons e rest ih =>
      obtain ⟨v, hv⟩ := Option.isSome_iff_exists.mp (hin e List.mem_cons_self)
      rw [List.filterMap_cons_some (b := (e.2, v)) (by rw [hv]; rfl), List.map_cons, List.map_cons,
        ih fun e' he' => hin e' (List.mem_cons_of_mem _ he')]
  have hfound : (named.filterMap fun e => (get? m e.2).map fun v => (e.2, v)).Perm
      (m.filter fun e => e.1 ∈ named.map Prod.snd) := by
    refine (List.perm_ext_iff_of_nodup (.of_map Prod.fst (by rw [hkeys]; exact hnodup))
      ((List.Nodup.of_map Prod.fst (List.pairwise_map.mpr (hm.imp ne_of_lt))).filter _)).mpr ?_
    rintro ⟨k, v⟩
    rw [List.mem_filterMap, List.mem_filter, decide_eq_true_eq, List.mem_map]
    constructor
    · rintro ⟨e, he, hv⟩
      obtain ⟨v', hv', heq⟩ := Option.map_eq_some_iff.mp hv
      obtain ⟨rfl, rfl⟩ := Prod.mk.inj heq
      exact ⟨mem_of_get? hv', e, he, rfl⟩
    · rintro ⟨hmem, e, he, rfl⟩
      exact ⟨e, he, by rw [get?_of_mem hm hmem]; rfl⟩
  have hparts := (List.filter_append_perm (fun e : K × V => decide (e.1 ∈ named.map Prod.snd)) m).symm
  simp only [← decide_not] at hparts
  exact hparts.trans (hfound.symm.append_right _)

end Maps

end Pairing
