import AuruPm.MergeLoss

/-!
# Arrays merged by id

Three arrays whose elements have distinct ids merge as sets of elements, placed in a fixed order:
what is left of the ancestor first, then what the local side added, then what only the remote side
added. Merging an element keeps its id.
-/

namespace AuruPm

set_option autoImplicit false

open SortedAssoc Value

/-- The ids of an array. -/
def ids (arr : List Value) : List String := arr.map idOf

/-- Both sides kept the ancestor element. -/
def KeptByBoth (a l r : List Value) (x : String) : Prop := x ∈ ids a ∧ x ∈ ids l ∧ x ∈ ids r

/-- One side edited the ancestor element that the other deleted. -/
def EditedByOne (a l r : List Value) (x : String) : Prop :=
  ∃ av ∈ a, idOf av = x ∧
    ((∃ lv ∈ l, idOf lv = x ∧ lv ≠ av ∧ x ∉ ids r) ∨ ∃ rv ∈ r, idOf rv = x ∧ rv ≠ av ∧ x ∉ ids l)

def Added (a l r : List Value) (x : String) : Prop := x ∉ ids a ∧ (x ∈ ids l ∨ x ∈ ids r)

/-- What the elements of a merged array are, and in which order they stand. -/
structure MergedAsSet (a l r m : List Value) : Prop where
  haveIds : allHaveId m = true
  distinct : (ids m).Nodup
  members : ∀ x, x ∈ ids m ↔ KeptByBoth a l r x ∨ EditedByOne a l r x ∨ Added a l r x
  order : ids m = (ids a).filter (· ∈ ids m) ++ (ids l).filter (· ∉ ids a) ++
    (ids r).filter (fun x => x ∉ ids a ∧ x ∉ ids l)

theorem byId_isNone_iff {arr : List Value} {x : String} : (byId arr x).isNone = true ↔ x ∉ ids arr := by
  rw [Option.isNone_iff_eq_none, byId_eq_none_iff, ids, List.mem_map]
  exact ⟨fun h ⟨v, hv, hx⟩ => h v hv hx, fun h v hv hx => h ⟨v, hv, hx⟩⟩

section Arrays
variable {a l r : List Value}

/-- What the first pass leaves, by its ids. -/
theorem ids_shared (hid : idKeyed a l r = true) {xs : List Value} (hsub : ∀ av ∈ xs, av ∈ a) :
    ids (xs.filterMap fun av => mergedElement av (byId l (idOf av)) (byId r (idOf av))) =
      ids (xs.filter fun av => (mergedElement av (byId l (idOf av)) (byId r (idOf av))).isSome) := by
  induction xs with
  | nil => rfl
  | cons av rest ih =>
    have hrest := ih fun v hv => hsub v (List.mem_cons_of_mem av hv)
    cases hm : mergedElement av (byId l (idOf av)) (byId r (idOf av)) with
    | none => simpa [hm] using hrest
    | some v =>
      have hv := idOf_mergedElement hid (hsub av List.mem_cons_self) hm
      simp only [ids] at hrest
      simp [ids, hm, hv, hrest]

theorem ids_additions : ids (additions a l r) =
    (ids l).filter (· ∉ ids a) ++ (ids r).filter (fun x => x ∉ ids a ∧ x ∉ ids l) := by
  simp only [additions, ids, List.map_append, List.filter_map]
  congr 2
  · apply List.filter_congr
    intro v _
    simp only [Function.comp]
    exact Bool.eq_iff_iff.mpr (byId_isNone_iff.trans (by simp [ids]))
  · apply List.filter_congr
    intro v _
    simp only [Function.comp]
    rw [Bool.eq_iff_iff, Bool.and_eq_true, byId_isNone_iff, byId_isNone_iff]
    simp [ids]

/-- Which ids the merged array has, in the terms of the three lookups. -/
theorem mem_ids_mergedElements (hid : idKeyed a l r = true) (ha : (ids a).Nodup)
    (hl : (ids l).Nodup) (hr : (ids r).Nodup) {x : String} : x ∈ ids (mergedElements a l r) ↔
      (mergedElementAt (byId a x) (byId l x) (byId r x)).isSome = true := by
  rw [Option.isSome_iff_exists, ids, List.mem_map]
  exact exists_congr fun v => mem_mergedElements hid ha hl hr x v

theorem ids_mergedElements (hid : idKeyed a l r = true) (ha : (ids a).Nodup)
    (hl : (ids l).Nodup) (hr : (ids r).Nodup) : ids (mergedElements a l r) =
      (ids a).filter (· ∈ ids (mergedElements a l r)) ++ (ids l).filter (· ∉ ids a) ++
        (ids r).filter (fun x => x ∉ ids a ∧ x ∉ ids l) := by
  have hshared : ids (a.filter fun av =>
      (mergedElement av (byId l (idOf av)) (byId r (idOf av))).isSome) =
      (ids a).filter (· ∈ ids (mergedElements a l r)) := by
    change List.map idOf _ = (List.map idOf a).filter _
    rw [List.filter_map]
    congr 1
    apply List.filter_congr
    intro av hav
    rw [Function.comp, Bool.eq_iff_iff, decide_eq_true_iff, mem_ids_mergedElements hid ha hl hr,
      byId_of_mem ha hav]
    exact Iff.rfl
  rw [← hshared, ← ids_shared hid fun _ h => h, List.append_assoc, ← ids_additions]
  exact List.map_append

/-- Which ids the merged array has, in the terms of the three arrays. -/
theorem isSome_mergedElementAt_iff (ha : (ids a).Nodup) (hl : (ids l).Nodup) (hr : (ids r).Nodup)
    {x : String} : (mergedElementAt (byId a x) (byId l x) (byId r x)).isSome = true ↔
      KeptByBoth a l r x ∨ EditedByOne a l r x ∨ Added a l r x := by
  have hmem : ∀ arr : List Value, x ∈ ids arr ↔ byId arr x ≠ none := by
    intro arr
    rw [← not_iff_not, not_not, ← byId_isNone_iff, Option.isNone_iff_eq_none]
  have hfound : ∀ {arr : List Value}, (ids arr).Nodup → ∀ v, v ∈ arr ∧ idOf v = x ↔
      byId arr x = some v := fun hd v => (byId_eq_some_iff hd).symm
  have hedited : EditedByOne a l r x ↔ ∃ av, byId a x = some av ∧
      ((∃ lv, byId l x = some lv ∧ lv ≠ av ∧ byId r x = none) ∨
        ∃ rv, byId r x = some rv ∧ rv ≠ av ∧ byId l x = none) := by
    simp only [EditedByOne, ← hfound ha, ← hfound hl, ← hfound hr, hmem, not_not, and_assoc]
  rw [KeptByBoth, Added, hedited, hmem, hmem, hmem]
  cases byId a x with
  | none => cases byId l x <;> cases byId r x <;> simp [mergedElementAt]
  | some av =>
    cases byId l x with
    | none =>
      cases byId r x with
      | none => simp [mergedElementAt, mergedElement]
      | some rv =>
        simp only [mergedElementAt, mergedElement]
        split <;> simp_all
    | some lv =>
      cases byId r x with
      | none =>
        simp only [mergedElementAt, mergedElement]
        split <;> simp_all
      | some rv => simp [mergedElementAt, mergedElement]

theorem nodup_ids_mergedElements (hid : idKeyed a l r = true) (ha : (ids a).Nodup)
    (hl : (ids l).Nodup) (hr : (ids r).Nodup) : (ids (mergedElements a l r)).Nodup := by
  rw [ids_mergedElements hid ha hl hr]
  have hal : ((ids a).filter (· ∈ ids (mergedElements a l r)) ++
      (ids l).filter (· ∉ ids a)).Nodup := by
    apply (ha.filter _).append (hl.filter _)
    intro x hx hy
    have hmem := (List.mem_filter.mp hx).1
    have hout := (List.mem_filter.mp hy).2
    simp [hmem] at hout
  apply hal.append (hr.filter _)
  intro x hx hy
  have hout := (List.mem_filter.mp hy).2
  rcases List.mem_append.mp hx with hx | hx
  · have hmem := (List.mem_filter.mp hx).1
    simp [hmem] at hout
  · have hmem := (List.mem_filter.mp hx).1
    simp [hmem] at hout

theorem allHaveId_mergedElements (hid : idKeyed a l r = true) :
    allHaveId (mergedElements a l r) = true := by
  obtain ⟨ha, hl, hr⟩ := idKeyed_iff.mp hid
  apply List.all_eq_true.mpr
  intro v hv
  rcases List.mem_append.mp hv with hv | hv
  · obtain ⟨av, hav, hm⟩ := List.mem_filterMap.mp hv
    rcases mergedElement_cases hm with hlv | hrv | ⟨lv, rv, hlv, hrv, rfl⟩
    · exact List.all_eq_true.mp hl v (byId_mem hlv).1
    · exact List.all_eq_true.mp hr v (byId_mem hrv).1
    · obtain ⟨hlm, hli⟩ := byId_mem hlv
      obtain ⟨hrm, hri⟩ := byId_mem hrv
      rw [idField_merged (idField_of_allHaveId ha hav) (hli ▸ idField_of_allHaveId hl hlm)
        (hri ▸ idField_of_allHaveId hr hrm)]
      rfl
  · rcases List.mem_append.mp hv with hv | hv
    · exact List.all_eq_true.mp hl v (List.mem_filter.mp hv).1
    · exact List.all_eq_true.mp hr v (List.mem_filter.mp hv).1

end Arrays

/-- Where all elements of the three arrays carry string ids, distinct in each array, the merge takes
the arrays as sets of elements, and it keeps the order of the ancestor and of the additions. -/
theorem merge_arrays_as_sets (a l r : List Value) (path : List PathStep)
    (hid : idKeyed a l r = true) (ha : (ids a).Nodup) (hl : (ids l).Nodup) (hr : (ids r).Nodup) :
    ∃ m, (mergeValues (.array a) (.array l) (.array r) path).1 = .array m ∧ MergedAsSet a l r m := by
  refine ⟨mergedElements a l r, ?_, ?_⟩
  · rw [mergeValues_split]
    exact merged_elements hid
  · exact {
      haveIds := allHaveId_mergedElements hid
      distinct := nodup_ids_mergedElements hid ha hl hr
      members := fun x => (mem_ids_mergedElements hid ha hl hr).trans
        (isSome_mergedElementAt_iff ha hl hr)
      order := ids_mergedElements hid ha hl hr }

def bareTracks (names : List String) : List Value := names.map fun x => .object [("id", .string x)]

theorem merge_added_tracks : ∃ m,
    (mergeValues (.array (bareTracks ["drums", "bass"])) (.array (bareTracks ["keys", "bass", "drums"]))
      (.array (bareTracks ["drums", "lead"])) []).1 = .array m ∧
    MergedAsSet (bareTracks ["drums", "bass"]) (bareTracks ["keys", "bass", "drums"])
      (bareTracks ["drums", "lead"]) m :=
  merge_arrays_as_sets _ _ _ [] (by decide) (by decide) (by decide) (by decide)

end AuruPm
