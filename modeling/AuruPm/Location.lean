import AuruPm.MergeWalk
import Mathlib.Data.List.Nodup

/-!
# Locations in three versions of a document

A location is a list of object keys, element ids and array indices. `Reaches` follows one
through the ancestor and both sides at once: an id step needs an array that is id-keyed in
all three versions, because only then does the merge match its elements by id.
-/

namespace AuruPm

set_option autoImplicit false

open SortedAssoc Value

/-! Elements by id. -/

theorem byId_mem {arr : List Value} {x : String} {v : Value} (h : byId arr x = some v) :
    v ∈ arr ∧ idOf v = x := by
  have hmem := List.mem_of_find?_eq_some h
  have hid := List.find?_some h
  exact ⟨List.mem_reverse.mp hmem, by simpa using hid⟩

theorem byId_eq_none_iff {arr : List Value} {x : String} :
    byId arr x = none ↔ ∀ v ∈ arr, idOf v ≠ x := by
  simp [byId, List.find?_eq_none]

theorem byId_isSome_of_mem {arr : List Value} {v : Value} (h : v ∈ arr) :
    (byId arr (idOf v)).isSome = true := by
  cases hb : byId arr (idOf v) with
  | some w => rfl
  | none => exact absurd rfl (byId_eq_none_iff.mp hb v h)

/-- An element that every element of its id equals is the one found. -/
theorem byId_eq_some_of_unique {arr : List Value} {x : String} {w : Value}
    (hmem : w ∈ arr) (hid : idOf w = x) (hu : ∀ v ∈ arr, idOf v = x → v = w) :
    byId arr x = some w := by
  subst hid
  obtain ⟨v, hv⟩ := Option.isSome_iff_exists.mp (byId_isSome_of_mem hmem)
  obtain ⟨hvm, hvi⟩ := byId_mem hv
  rw [hv, hu v hvm hvi]

theorem byId_of_mem {arr : List Value} (hd : (arr.map idOf).Nodup) {v : Value} (h : v ∈ arr) :
    byId arr (idOf v) = some v :=
  byId_eq_some_of_unique h rfl fun _ hw he => List.inj_on_of_nodup_map hd hw h he

theorem idField_of_allHaveId {arr : List Value} (h : allHaveId arr = true) {v : Value}
    (hv : v ∈ arr) : idField v = some (idOf v) := by
  have hsome := List.all_eq_true.mp h v hv
  obtain ⟨x, hx⟩ := Option.isSome_iff_exists.mp hsome
  simp [idOf, hx]

theorem object_of_idField {v : Value} {x : String} (h : idField v = some x) :
    ∃ fs, v = .object fs ∧ get? fs "id" = some (.string x) := by
  cases v with
  | object fs =>
    simp only [idField, Value.get, Option.bind_eq_some_iff] at h
    obtain ⟨w, hw, hs⟩ := h
    cases w <;> simp only [asStr, reduceCtorEq, Option.some.injEq] at hs
    subst hs
    exact ⟨fs, rfl, hw⟩
  | _ => simp [idField, Value.get] at h

theorem idOf_of_idField {v : Value} {x : String} (h : idField v = some x) : idOf v = x := by
  simp [idOf, h]

mutual
/-- The elements of every id-keyed array have pairwise distinct ids. -/
def Value.distinctIds : Value → Bool
  | .array elems =>
    (!allHaveId elems || decide (elems.map idOf).Nodup) && distinctIdsElems elems
  | .object fields => distinctIdsFields fields
  | _ => true
def distinctIdsElems : List Value → Bool
  | [] => true
  | v :: vs => v.distinctIds && distinctIdsElems vs
def distinctIdsFields : List (String × Value) → Bool
  | [] => true
  | (_, v) :: fs => v.distinctIds && distinctIdsFields fs
end

theorem distinctIds_array {vs : List Value} :
    (array vs).distinctIds = true ↔
      (allHaveId vs = true → (vs.map idOf).Nodup) ∧ ∀ v ∈ vs, v.distinctIds = true := by
  have helems : distinctIdsElems vs = true ↔ ∀ v ∈ vs, v.distinctIds = true := by
    induction vs with
    | nil => simp [distinctIdsElems]
    | cons v vs ih => simp [distinctIdsElems, ih]
  cases h : allHaveId vs <;> simp [distinctIds, helems, h]

theorem distinctIds_object {fs : List (String × Value)} :
    (object fs).distinctIds = true ↔ ∀ e ∈ fs, e.2.distinctIds = true := by
  simp only [distinctIds]
  induction fs with
  | nil => simp [distinctIdsFields]
  | cons f fs ih =>
    simp only [distinctIdsFields, Bool.and_eq_true, ih, List.mem_cons]
    exact ⟨fun h e he => he.elim (fun he => he ▸ h.1) (h.2 e),
      fun h => ⟨h f (Or.inl rfl), fun e he => h e (Or.inr he)⟩⟩

/-- Objects are maps and ids are distinct, all the way down. -/
structure Tidy (v : Value) : Prop where
  wf : v.wf = true
  ids : v.distinctIds = true

theorem Tidy.field {fs : List (String × Value)} (h : Tidy (.object fs)) {k : String} {v : Value}
    (hv : get? fs k = some v) : Tidy v :=
  ⟨wf_of_get? h.wf hv, distinctIds_object.mp h.ids (k, v) (mem_of_get? hv)⟩

theorem Tidy.element {vs : List Value} (h : Tidy (.array vs)) {v : Value} (hv : v ∈ vs) :
    Tidy v :=
  ⟨wf_array.mp h.wf v hv, (distinctIds_array.mp h.ids).2 v hv⟩

theorem Tidy.nodup {vs : List Value} (h : Tidy (.array vs)) (hid : allHaveId vs = true) :
    (vs.map idOf).Nodup :=
  (distinctIds_array.mp h.ids).1 hid

theorem Tidy.sorted {fs : List (String × Value)} (h : Tidy (.object fs)) : Sorted fs :=
  (wf_object.mp h.wf).1

theorem idKeyed_iff {a l r : List Value} :
    idKeyed a l r = true ↔ allHaveId a = true ∧ allHaveId l = true ∧ allHaveId r = true := by
  simp [idKeyed, and_assoc]

theorem idField_merged {a l r : Value} {x : String} (ha : idField a = some x)
    (hl : idField l = some x) (hr : idField r = some x) : idField (merged a l r) = some x := by
  obtain ⟨fa, rfl, hfa⟩ := object_of_idField ha
  obtain ⟨fl, rfl, hfl⟩ := object_of_idField hl
  obtain ⟨fr, rfl, hfr⟩ := object_of_idField hr
  rw [merged_object]
  simp [idField, Value.get, hfa, hfl, hfr, asStr]

theorem mergedElement_cases {av v : Value} {l r : Option Value}
    (h : mergedElement av l r = some v) :
    l = some v ∨ r = some v ∨ ∃ lv rv, l = some lv ∧ r = some rv ∧ v = merged av lv rv := by
  cases l <;> cases r <;> simp only [mergedElement] at h
  · simp at h
  · split at h <;> simp_all
  · split at h <;> simp_all
  · exact Or.inr (Or.inr ⟨_, _, rfl, rfl, (Option.some.inj h).symm⟩)

/-- The elements of the merged array. -/
def mergedElements (a l r : List Value) : List Value :=
  (a.filterMap fun av => mergedElement av (byId l (idOf av)) (byId r (idOf av))) ++ additions a l r

theorem idOf_mergedElement {a l r : List Value} (hid : idKeyed a l r = true) {av v : Value} (hav : av ∈ a)
    (h : mergedElement av (byId l (idOf av)) (byId r (idOf av)) = some v) :
    idOf v = idOf av := by
  obtain ⟨ha, hl, hr⟩ := idKeyed_iff.mp hid
  rcases mergedElement_cases h with h | h | ⟨lv, rv, hlv, hrv, rfl⟩
  · exact (byId_mem h).2
  · exact (byId_mem h).2
  · obtain ⟨hlm, hli⟩ := byId_mem hlv
    obtain ⟨hrm, hri⟩ := byId_mem hrv
    apply idOf_of_idField
    apply idField_merged (idField_of_allHaveId ha hav)
    · rw [idField_of_allHaveId hl hlm, hli]
    · rw [idField_of_allHaveId hr hrm, hri]

/-- The value at a location of one document. -/
def Value.at? : Value → List ConflictPathSegment → Option Value
  | v, [] => some v
  | .object fields, .key k :: path => (get? fields k).bind (·.at? path)
  | .array elems, .id x :: path => (byId elems x).bind (·.at? path)
  | .array elems, .index i :: path => elems[i]?.bind (·.at? path)
  | _, _ :: _ => none

@[simp] theorem at?_nil (v : Value) : v.at? [] = some v := by cases v <;> rfl

@[simp] theorem at?_key (fs : List (String × Value)) (k : String)
    (path : List ConflictPathSegment) :
    (object fs).at? (.key k :: path) = (get? fs k).bind (·.at? path) := rfl

@[simp] theorem at?_id (vs : List Value) (x : String) (path : List ConflictPathSegment) :
    (array vs).at? (.id x :: path) = (byId vs x).bind (·.at? path) := rfl

/-- The location leads from these three optional values to those three. -/
inductive Reaches : Option Value → Option Value → Option Value → List ConflictPathSegment →
    Option Value → Option Value → Option Value → Prop
  | here (a l r : Option Value) : Reaches a l r [] a l r
  | key {a l r : List (String × Value)} {k : String} {path : List ConflictPathSegment}
      {a' l' r' : Option Value} (rest : Reaches (get? a k) (get? l k) (get? r k) path a' l' r') :
      Reaches (some (.object a)) (some (.object l)) (some (.object r)) (.key k :: path) a' l' r'
  | id {a l r : List Value} {x : String} {path : List ConflictPathSegment}
      {a' l' r' : Option Value} (hid : idKeyed a l r = true)
      (rest : Reaches (byId a x) (byId l x) (byId r x) path a' l' r') :
      Reaches (some (.array a)) (some (.array l)) (some (.array r)) (.id x :: path) a' l' r'
  | index {a l r : List Value} {i : Nat} {path : List ConflictPathSegment}
      {a' l' r' : Option Value} (hid : idKeyed a l r = false)
      (rest : Reaches a[i]? l[i]? r[i]? path a' l' r') :
      Reaches (some (.array a)) (some (.array l)) (some (.array r)) (.index i :: path) a' l' r'

theorem Reaches.ancestor_at {a l r a' l' r' : Option Value} {path : List ConflictPathSegment}
    (h : Reaches a l r path a' l' r') : a.bind (·.at? path) = a' := by
  induction h with
  | here a => cases a <;> simp
  | key _ ih => exact ih
  | id _ _ ih => exact ih
  | index _ _ ih => exact ih

/-- The location does not know the sides apart. -/
theorem Reaches.rotate {a l r a' l' r' : Option Value} {path : List ConflictPathSegment}
    (h : Reaches a l r path a' l' r') : Reaches l r a path l' r' a' := by
  induction h with
  | here => exact .here _ _ _
  | key _ ih => exact .key ih
  | id hid _ ih =>
    have hid' := idKeyed_iff.mp hid
    exact .id (idKeyed_iff.mpr ⟨hid'.2.1, hid'.2.2, hid'.1⟩) ih
  | @index a l r _ _ _ _ _ hid _ ih =>
    refine .index ?_ ih
    rw [← hid]
    simp only [idKeyed]
    cases allHaveId a <;> cases allHaveId l <;> cases allHaveId r <;> rfl

theorem Reaches.local_at {a l r a' l' r' : Option Value} {path : List ConflictPathSegment}
    (h : Reaches a l r path a' l' r') : l.bind (·.at? path) = l' := h.rotate.ancestor_at

theorem Reaches.remote_at {a l r a' l' r' : Option Value} {path : List ConflictPathSegment}
    (h : Reaches a l r path a' l' r') : r.bind (·.at? path) = r' := h.rotate.rotate.ancestor_at

theorem Reaches.start_some {a l r : Option Value} {path : List ConflictPathSegment}
    {a' l' r' : Value} (h : Reaches a l r path (some a') (some l') (some r')) :
    ∃ av lv rv, a = some av ∧ l = some lv ∧ r = some rv := by
  cases h with
  | here => exact ⟨_, _, _, rfl, rfl, rfl⟩
  | key => exact ⟨_, _, _, rfl, rfl, rfl⟩
  | id => exact ⟨_, _, _, rfl, rfl, rfl⟩
  | index => exact ⟨_, _, _, rfl, rfl, rfl⟩

/-- A location that differs on both sides is one the merge walks to. -/
theorem Reaches.visits {a l r a' l' r' : Value} {path : List ConflictPathSegment}
    (h : Reaches (some a) (some l) (some r) path (some a') (some l') (some r'))
    (hl : l' ≠ a') (hr : r' ≠ a') :
    ∃ steps, Visits a l r steps a' l' r' ∧ steps.map PathStep.segment = path := by
  generalize hoa : some a = oa at h
  generalize hol : some l = ol at h
  generalize hor : some r = or at h
  generalize hoa' : some a' = oa' at h
  generalize hol' : some l' = ol' at h
  generalize hor' : some r' = or' at h
  induction h generalizing a l r with
  | here =>
    cases hoa'; cases hol'; cases hor'
    cases hoa; cases hol; cases hor
    exact ⟨[], .here _ _ _, rfl⟩
  | @key fa fl fr k path _ _ _ rest ih =>
    cases hoa; cases hol; cases hor
    subst hoa' hol' hor'
    obtain ⟨av, lv, rv, ha, hlv, hrv⟩ := rest.start_some
    obtain ⟨steps, hv, hp⟩ := ih ha.symm hlv.symm hrv.symm rfl rfl rfl
    refine ⟨.key k :: steps, .field ha hlv hrv ?_ ?_ hv, by simp [PathStep.segment, hp]⟩
    · rintro rfl
      have := rest.local_at
      rw [hlv, ← ha, rest.ancestor_at] at this
      exact hl (Option.some.inj this).symm
    · rintro rfl
      have := rest.remote_at
      rw [hrv, ← ha, rest.ancestor_at] at this
      exact hr (Option.some.inj this).symm
  | @id xa xl xr x path _ _ _ hid rest ih =>
    cases hoa; cases hol; cases hor
    subst hoa' hol' hor'
    obtain ⟨av, lv, rv, ha, hlv, hrv⟩ := rest.start_some
    obtain ⟨steps, hv, hp⟩ := ih ha.symm hlv.symm hrv.symm rfl rfl rfl
    obtain ⟨hmem, hx⟩ := byId_mem ha
    subst hx
    obtain ⟨before, after, rfl⟩ := List.append_of_mem hmem
    exact ⟨_, .element hid hlv hrv hv, by simp [PathStep.segment, hp]⟩
  | @index xa xl xr i path _ _ _ hid rest ih =>
    cases hoa; cases hol; cases hor
    subst hoa' hol' hor'
    obtain ⟨av, lv, rv, ha, hlv, hrv⟩ := rest.start_some
    obtain ⟨steps, hv, hp⟩ := ih ha.symm hlv.symm hrv.symm rfl rfl rfl
    have hlen : i < paddedLength xa xl xr := by
      have := (List.getElem?_eq_some_iff.mp ha).1
      unfold paddedLength
      omega
    refine ⟨.index i :: steps, .index hid hlen ?_, by simp [PathStep.segment, hp]⟩
    simpa [padded, ha, hlv, hrv] using hv

end AuruPm
