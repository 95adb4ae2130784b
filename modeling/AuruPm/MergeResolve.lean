import AuruPm.Resolve

/-!
# Conflict choices on the merge's own conflicts

Every conflict of a merge sits at a location of the merged base that holds the local value,
and no two of them are nested. So the choices are independent as long as the printed paths
are read back.
-/

namespace AuruPm

set_option autoImplicit false

open SortedAssoc Value

/-! Locations of the merged base. -/

theorem place_shared {f : Value → Option Value} {before after rest : List Value} {av m : Value}
    (hav : f av = some m) (hm : idField m = some (idOf av))
    (hkept : ∀ b ∈ before, idOf b = idOf av → ∃ mb, f b = some mb)
    (hids : ∀ b ∈ before, ∀ mb, f b = some mb → idField mb = some (idOf b)) :
    ((before ++ av :: after).filterMap f ++ rest)[place (idOf av)
      ((before.map idOf).count (idOf av)) ((before ++ av :: after).filterMap f ++ rest)]? =
        some m := by
  induction before with
  | nil =>
    have hhas : hasId (idOf av) m = true := hasId_iff.mpr hm
    simp [hav, place, hhas]
  | cons b before ih =>
    have hrest := ih (fun c hc => hkept c (List.mem_cons_of_mem b hc))
      fun c hc => hids c (List.mem_cons_of_mem b hc)
    cases hb : f b with
    | none =>
      have hne : idOf b ≠ idOf av := by
        intro he
        obtain ⟨mb, hmb⟩ := hkept b List.mem_cons_self he
        rw [hb] at hmb
        cases hmb
      simpa [hb, List.count_cons, hne] using hrest
    | some mb =>
      have hid := hids b List.mem_cons_self mb hb
      by_cases he : idOf b = idOf av
      · have hhas : hasId (idOf av) mb = true := hasId_iff.mpr (he ▸ hid)
        simpa [hb, place, hhas, he] using hrest
      · have hhas : hasId (idOf av) mb = false := by
          simp [hasId, hid, he]
        simpa [hb, place, hhas, he, List.count_cons] using hrest

theorem mergedElement_both (av lv rv : Value) :
    mergedElement av (some lv) (some rv) = some (merged av lv rv) := rfl

theorem Visits.locate_merged {a l r a' l' r' : Value} {path : List PathStep}
    (h : Visits a l r path a' l' r') (steps : List PathStep) :
    locate (path ++ steps) (merged a l r) = locate steps (merged a' l' r') := by
  induction h with
  | here => rfl
  | @field a l r k av lv rv _ _ _ path ha hl hr hlc hrc _ ih =>
    rw [List.cons_append, locate, merged_object]
    simp only [PathStep.child, get?_mergedFields, ha, hl, hr, mergedAt_changed hlc hrc,
      Option.bind_some]
    exact ih
  | @element l r before after av lv rv _ _ _ path hid hl hr _ ih =>
    have hav : av ∈ before ++ av :: after := by simp
    obtain ⟨hia, hil, hir⟩ := idKeyed_iff.mp hid
    have hkeyed : ∀ b ∈ before ++ av :: after, ∀ mb,
        mergedElement b (byId l (idOf b)) (byId r (idOf b)) = some mb →
          idField mb = some (idOf b) := by
      intro b hb mb hmb
      rcases mergedElement_cases hmb with h | h | ⟨lb, rb, hlb, hrb, rfl⟩
      · rw [idField_of_allHaveId hil (byId_mem h).1, (byId_mem h).2]
      · rw [idField_of_allHaveId hir (byId_mem h).1, (byId_mem h).2]
      · apply idField_merged (idField_of_allHaveId hia hb)
        · rw [idField_of_allHaveId hil (byId_mem hlb).1, (byId_mem hlb).2]
        · rw [idField_of_allHaveId hir (byId_mem hrb).1, (byId_mem hrb).2]
    have hmerge : mergedElement av (byId l (idOf av)) (byId r (idOf av)) =
        some (merged av lv rv) := by rw [hl, hr, mergedElement_both]
    rw [List.cons_append, locate, merged_elements hid, PathStep.child]
    rw [place_shared hmerge (hkeyed av hav _ hmerge)
      (fun b _ he => ⟨_, by rw [he, hl, hr, mergedElement_both]⟩)
      fun b hb => hkeyed b (by simp [hb])]
    exact ih
  | @index a l r i _ _ _ path hid hi _ ih =>
    rw [List.cons_append, locate, merged_indices hid]
    simp only [PathStep.child, List.getElem?_map, List.getElem?_range hi, Option.map_some,
      Option.bind_some]
    exact ih

/-- The node's own conflict shows the local value where the merged node has it. -/
theorem NodeClash.values {a l r : Value} {d : Conflict} (h : NodeClash a l r d) :
    ∃ lv rv, d.localValue = some lv ∧ d.remote = some rv ∧ lv ≠ rv ∧
      locate d.path (merged a l r) = some lv := by
  cases h with
  | leaf h hl hr hlr => exact ⟨l, r, rfl, rfl, hlr, by rw [merged_leaf h, if_neg hl, locate]⟩
  | @added fa fl fr k lv rv ha hl hr hlr =>
    refine ⟨lv, rv, rfl, rfl, hlr, ?_⟩
    rw [merged_object]
    simp [locate, PathStep.child, ha, hl, hr]

/-- The merged base holds the local value at every conflict. -/
theorem clash_located {a l r : Value} {c : Conflict} (h : c ∈ clashes a l r) :
    ∃ lv rv, c.localValue = some lv ∧ c.remote = some rv ∧ lv ≠ rv ∧
      locate c.path (merged a l r) = some lv := by
  obtain ⟨path, a', l', r', d, hv, hd, rfl⟩ := mem_clashes_iff.mp h
  obtain ⟨lv, rv, hl, hr, hne, hloc⟩ := hd.values
  refine ⟨lv, rv, hl, hr, hne, ?_⟩
  rw [Conflict.under, hv.locate_merged, hloc]

/-! No conflict touches an id of an id-keyed array. -/

theorem Visits.of_element {a l r a' l' r' : Value} {path : List PathStep} {x : String}
    (h : Visits a l r path a' l' r') {d : Conflict} (hd : NodeClash a' l' r' d)
    (ha : idField a = some x) (hl : idField l = some x) (hr : idField r = some x) :
    ∃ k steps, path ++ d.path = .key k :: steps ∧ k ≠ "id" := by
  obtain ⟨fa, rfl, hfa⟩ := object_of_idField ha
  obtain ⟨fl, rfl, hfl⟩ := object_of_idField hl
  obtain ⟨fr, rfl, hfr⟩ := object_of_idField hr
  cases h with
  | here =>
    cases hd with
    | leaf hleaf => exact absurd ⟨rfl, rfl, rfl⟩ hleaf.1
    | @added _ _ _ k _ _ hk =>
      refine ⟨k, [], rfl, ?_⟩
      rintro rfl
      rw [hfa] at hk
      cases hk
  | @field _ _ _ k av lv _ _ _ _ path hka hkl _ hlc =>
    refine ⟨k, path ++ d.path, rfl, ?_⟩
    rintro rfl
    rw [hfa] at hka
    rw [hfl] at hkl
    exact hlc ((Option.some.inj hkl).symm.trans (Option.some.inj hka))

theorem Visits.keepsIds {a l r a' l' r' : Value} {path : List PathStep}
    (h : Visits a l r path a' l' r') {d : Conflict} (hd : NodeClash a' l' r' d) :
    KeepsIds (path ++ d.path) := by
  induction h with
  | here =>
    cases hd with
    | leaf => trivial
    | added => trivial
  | field _ _ _ _ _ _ ih => exact ih hd
  | index _ _ _ ih => exact ih hd
  | @element l r before after av lv rv _ _ _ path hid hl hr rest ih =>
    obtain ⟨hia, hil, hir⟩ := idKeyed_iff.mp hid
    have ha := idField_of_allHaveId (v := av) hia (by simp)
    have hlid := idField_of_allHaveId hil (byId_mem hl).1
    have hrid := idField_of_allHaveId hir (byId_mem hr).1
    rw [(byId_mem hl).2] at hlid
    rw [(byId_mem hr).2] at hrid
    obtain ⟨k, steps, heq, hk⟩ := rest.of_element hd ha hlid hrid
    have hrec := ih hd
    rw [List.cons_append, heq]
    rw [heq] at hrec
    exact ⟨hk, hrec⟩

theorem clash_keepsIds {a l r : Value} {c : Conflict} (h : c ∈ clashes a l r) :
    KeepsIds c.path := by
  obtain ⟨path, a', l', r', d, hv, hd, rfl⟩ := mem_clashes_iff.mp h
  exact hv.keepsIds hd

/-! No conflict is inside another. -/

def Conflicts.Disjoint (cs : List Conflict) : Prop := cs.Pairwise fun c d => Apart c.path d.path

theorem Apart.append {p q : List PathStep} (h : Apart p q) (front : List PathStep) :
    Apart (front ++ p) (front ++ q) := by
  induction front with
  | nil => exact h
  | cons s front ih => exact .tail s ih

theorem Conflicts.Disjoint.under {cs : List Conflict} (h : Conflicts.Disjoint cs)
    (path : List PathStep) : Conflicts.Disjoint (cs.map (Conflict.under path)) :=
  List.pairwise_map.mpr (h.imp fun hcd => hcd.append path)

theorem apart_under {s t : PathStep} (h : Beside s t) (c d : Conflict) :
    Apart (c.under [s]).path (d.under [t]).path := .head h _ _

theorem disjoint_field {key : String} {a l r : Option Value}
    (ih : ∀ av, a = some av → ∀ l r, Conflicts.Disjoint (clashes av l r)) :
    Conflicts.Disjoint (mergeField mergeValues [] key a l r).2 := by
  unfold mergeField
  split
  · exact .nil
  · exact .nil
  · exact .nil
  · split <;> exact .nil
  · split <;> exact .nil
  · split
    · exact .nil
    · exact .nil
    · exact .nil
    · simp only [mergeValues_split]
      exact (ih _ rfl _ _).under _
  · split
    · exact .nil
    · exact List.pairwise_singleton _ _

theorem mergeField_path {key : String} {a l r : Option Value} {c : Conflict}
    (h : c ∈ (mergeField mergeValues [] key a l r).2) : ∃ d : Conflict, c = d.under [.key key] := by
  rcases mem_mergeField_snd.mp h with ⟨_, _, _, d, _, _, _, _, _, _, rfl⟩ | ⟨lv, rv, _, _, _, _, rfl⟩
  · exact ⟨d, rfl⟩
  · exact ⟨⟨[], none, some lv, some rv⟩, rfl⟩

theorem disjoint_object {a l r : List (String × Value)}
    (ih : ∀ k av, get? a k = some av → ∀ l r, Conflicts.Disjoint (clashes av l r)) :
    Conflicts.Disjoint (clashes (.object a) (.object l) (.object r)) := by
  rw [clashes, mergeValues_eq]
  refine List.pairwise_flatMap.mpr ⟨fun k _ => disjoint_field (ih k), ?_⟩
  refine (pairwise_keySet _).imp ?_
  intro k k' hlt c hc d hd
  obtain ⟨c, rfl⟩ := mergeField_path hc
  obtain ⟨d, rfl⟩ := mergeField_path hd
  have hkk : Beside (.key k) (.key k') := by
    rintro rfl
    exact lt_irrefl _ hlt
  exact apart_under hkk c d

theorem disjoint_shared {a l r : List Value} (seen : List String)
    (ih : ∀ av ∈ a, ∀ l r, Conflicts.Disjoint (clashes av l r)) :
    Conflicts.Disjoint (mergeShared mergeValues l r [] seen a).2 := by
  induction a generalizing seen with
  | nil => exact .nil
  | cons av rest ihr =>
    have hrest := ihr (seen ++ [idOf av]) fun w hw => ih w (List.mem_cons_of_mem av hw)
    simp only [mergeShared]
    split
    · exact hrest
    · split <;> exact hrest
    · split <;> exact hrest
    · rename_i lv rv _ _
      rw [mergeValues_split]
      refine List.pairwise_append.mpr ⟨(ih av List.mem_cons_self lv rv).under _, hrest, ?_⟩
      intro c hc d hd
      obtain ⟨c, _, rfl⟩ := List.mem_map.mp hc
      obtain ⟨before, av', after, _, _, d, rfl, _, _, _, rfl⟩ := mem_mergeShared_snd.mp hd
      -- the later element has passed at least one more of the same id
      have hbeside : Beside (.element (idOf av) (seen.count (idOf av)))
          (.element (idOf av')
            ((seen ++ [idOf av] ++ before.map idOf).count (idOf av'))) := by
        intro he
        obtain ⟨hid, hcount⟩ := Prod.mk.inj he
        rw [← hid] at hcount
        simp only [List.count_append, List.count_singleton_self] at hcount
        omega
      exact apart_under hbeside c d

theorem disjoint_indices {a l r : List Value} {n : Nat}
    (ih : ∀ i l r, Conflicts.Disjoint (clashes (padded a i) l r)) :
    Conflicts.Disjoint ((List.range n).flatMap fun i =>
      (mergeValues (padded a i) (padded l i) (padded r i) [.index i]).2) := by
  refine List.pairwise_flatMap.mpr ⟨fun i _ => ?_, ?_⟩
  · rw [mergeValues_split]
    exact (ih i _ _).under _
  · refine List.pairwise_lt_range.imp ?_
    intro i j hij c hc d hd
    rw [mergeValues_split] at hc hd
    obtain ⟨c, _, rfl⟩ := List.mem_map.mp hc
    obtain ⟨d, _, rfl⟩ := List.mem_map.mp hd
    have hbeside : Beside (.index i) (.index j) := Nat.ne_of_lt hij
    exact apart_under hbeside c d

theorem disjoint_leaf {a l r : Value} (h : IsLeaf a l r) : Conflicts.Disjoint (clashes a l r) := by
  rw [clashes_leaf h]
  split
  · exact List.pairwise_singleton _ _
  · exact .nil

theorem clashes_disjoint (a l r : Value) : Conflicts.Disjoint (clashes a l r) := by
  induction a using Value.induct generalizing l r with
  | null => exact disjoint_leaf (by simp [IsLeaf, isObject, isArray])
  | bool => exact disjoint_leaf (by simp [IsLeaf, isObject, isArray])
  | number => exact disjoint_leaf (by simp [IsLeaf, isObject, isArray])
  | string => exact disjoint_leaf (by simp [IsLeaf, isObject, isArray])
  | object fs ih =>
    by_cases hleaf : IsLeaf (.object fs) l r
    · exact disjoint_leaf hleaf
    obtain ⟨l, r, rfl, rfl⟩ := objects_of_not_leaf hleaf
    exact disjoint_object fun k av hav => ih (k, av) (mem_of_get? hav)
  | array xs ih =>
    by_cases hleaf : IsLeaf (.array xs) l r
    · exact disjoint_leaf hleaf
    obtain ⟨l, r, rfl, rfl⟩ := arrays_of_not_leaf hleaf
    rw [clashes, mergeValues_eq]
    simp only [mergeNode, mergeArrays]
    split
    · exact disjoint_shared [] ih
    · refine disjoint_indices fun i l r => ?_
      cases hx : xs[i]? with
      | none =>
        have hnull : padded xs i = .null := by simp [padded, hx]
        rw [hnull]
        exact disjoint_leaf (by simp [IsLeaf, isObject, isArray])
      | some x =>
        have hsome : padded xs i = x := by simp [padded, hx]
        rw [hsome]
        exact ih x (List.mem_of_getElem? hx) l r

/-! The choices. -/

/-- A conflict and what was chosen for it. -/
abbrev Decision := Conflict × ConflictChoice

/-- The document after one decision: a `Remote` choice puts the remote value at the location. -/
def Decision.apply (base : Value) (d : Decision) : Value :=
  match d.2, d.1.remote with
  | .remote, some remote => overwrite remote d.1.path base
  | _, _ => base

/-- The result is the base with the remote value wherever `Remote` was chosen. -/
structure AppliesExactly (base : Value) (decisions : List Decision) (result : Value) : Prop where
  overwritten : result = decisions.foldl Decision.apply base
  chosen : ∀ d ∈ decisions,
    locate d.1.path result = if d.2 = .remote then d.1.remote else d.1.localValue
  untouched : ∀ steps, (∀ d ∈ decisions, d.2 = .remote → Apart d.1.path steps) →
    locate steps result = locate steps base
  allLocal : (∀ d ∈ decisions, d.2 = .localValue) → result = base

/-- Resolving the conflicts of this merge does what the choices say, for all choices. -/
def ResolvesAsChosen (a l r : Value) : Prop :=
  ∀ base conflicts, merge3 a l r = .conflict base conflicts →
    ∀ choices : List ConflictChoice, choices.length = conflicts.length →
      ∃ result, resolveConflicts base conflicts choices = .ok result ∧
        AppliesExactly base ((clashes a l r).zip choices) result

/-- Every conflict is below the root and every step of its path is addressable. -/
def AddressableConflicts (a l r : Value) : Prop :=
  ∀ path a' l' r' d, Visits a l r path a' l' r' → NodeClash a' l' r' d →
    path ++ d.path ≠ [] ∧ ∀ s ∈ path ++ d.path, s.Addressable

theorem addressableConflicts_iff {a l r : Value} :
    AddressableConflicts a l r ↔
      ∀ c ∈ clashes a l r, c.path ≠ [] ∧ ∀ s ∈ c.path, s.Addressable := by
  constructor
  · intro h c hc
    obtain ⟨path, a', l', r', d, hv, hd, rfl⟩ := mem_clashes_iff.mp hc
    exact h path a' l' r' d hv hd
  · intro h path a' l' r' d hv hd
    exact h _ (mem_clashes_iff.mpr ⟨path, a', l', r', d, hv, hd, rfl⟩)

theorem Beside.symm {s t : PathStep} (h : Beside s t) : Beside t s := by
  cases s <;> cases t <;> first | exact Ne.symm h | exact h

theorem Apart.symm {p q : List PathStep} (h : Apart p q) : Apart q p := by
  induction h with
  | head h p q => exact .head h.symm q p
  | tail s _ ih => exact .tail s ih

/-- What the choices may rely on: each conflict has its own place in the base. -/
structure Placed (base : Value) (decisions : List Decision) : Prop where
  located : ∀ d ∈ decisions, ∃ lv rv, d.1.localValue = some lv ∧ d.1.remote = some rv ∧
    locate d.1.path base = some lv
  keepsIds : ∀ d ∈ decisions, KeepsIds d.1.path
  disjoint : decisions.Pairwise fun d e => Apart d.1.path e.1.path

theorem Decision.locate_apart {d : Decision} (hk : KeepsIds d.1.path) {steps : List PathStep}
    (h : d.2 = .remote → Apart d.1.path steps) (base : Value) :
    locate steps (d.apply base) = locate steps base := by
  unfold Decision.apply
  split
  · rename_i hr _
    exact locate_overwrite_apart hk (h hr) _ _
  · rfl

theorem Placed.tail {base : Value} {d : Decision} {ds : List Decision}
    (h : Placed base (d :: ds)) : Placed (d.apply base) ds := by
  obtain ⟨hd, hds⟩ := List.pairwise_cons.mp h.disjoint
  refine ⟨fun e he => ?_, fun e he => h.keepsIds e (List.mem_cons_of_mem d he), hds⟩
  obtain ⟨lv, rv, hl, hr, hloc⟩ := h.located e (List.mem_cons_of_mem d he)
  refine ⟨lv, rv, hl, hr, ?_⟩
  rw [Decision.locate_apart (h.keepsIds d List.mem_cons_self) (fun _ => hd e he), hloc]

theorem foldl_apply_apart {ds : List Decision} (hk : ∀ d ∈ ds, KeepsIds d.1.path)
    {steps : List PathStep} (h : ∀ d ∈ ds, d.2 = .remote → Apart d.1.path steps) (base : Value) :
    locate steps (ds.foldl Decision.apply base) = locate steps base := by
  induction ds generalizing base with
  | nil => rfl
  | cons d ds ih =>
    rw [List.foldl_cons, ih (fun e he => hk e (List.mem_cons_of_mem d he))
      fun e he => h e (List.mem_cons_of_mem d he)]
    exact Decision.locate_apart (hk d List.mem_cons_self) (h d List.mem_cons_self) base

theorem Placed.locate_apply {base : Value} {d : Decision} {ds : List Decision}
    (h : Placed base (d :: ds)) :
    locate d.1.path (d.apply base) = if d.2 = .remote then d.1.remote else d.1.localValue := by
  obtain ⟨lv, rv, hl, hr, hloc⟩ := h.located d List.mem_cons_self
  have hk := h.keepsIds d List.mem_cons_self
  cases hc : d.2 with
  | remote =>
    rw [if_pos rfl, hr]
    simp only [Decision.apply, hc, hr]
    exact locate_overwrite_self hk hloc rv
  | localValue =>
    rw [if_neg (by simp), hl]
    simp only [Decision.apply, hc]
    exact hloc

theorem Placed.chosen {base : Value} {ds : List Decision} (h : Placed base ds) :
    ∀ d ∈ ds, locate d.1.path (ds.foldl Decision.apply base) =
      if d.2 = .remote then d.1.remote else d.1.localValue := by
  induction ds generalizing base with
  | nil => simp
  | cons d ds ih =>
    intro e he
    rcases List.mem_cons.mp he with rfl | he
    · have hd := (List.pairwise_cons.mp h.disjoint).1
      rw [List.foldl_cons, foldl_apply_apart h.tail.keepsIds fun f hf _ => (hd f hf).symm]
      exact h.locate_apply
    · exact ih h.tail e he

theorem foldl_apply_local {ds : List Decision} (h : ∀ d ∈ ds, d.2 = .localValue) (base : Value) :
    ds.foldl Decision.apply base = base := by
  induction ds generalizing base with
  | nil => rfl
  | cons d ds ih =>
    have hd : d.apply base = base := by simp [Decision.apply, h d List.mem_cons_self]
    rw [List.foldl_cons, hd]
    exact ih (fun e he => h e (List.mem_cons_of_mem d he)) base

theorem Placed.appliesExactly {base : Value} {ds : List Decision} (h : Placed base ds) :
    AppliesExactly base ds (ds.foldl Decision.apply base) :=
  ⟨rfl, h.chosen, fun _ hs => foldl_apply_apart h.keepsIds hs base,
    fun hl => foldl_apply_local hl base⟩

def printed (d : Decision) : ConflictedField × ConflictChoice := (d.1.field, d.2)

theorem setConflictedValue_addressable {c : Conflict} (hne : c.path ≠ [])
    (hs : ∀ s ∈ c.path, s.Addressable) {base lv : Value} (h : locate c.path base = some lv)
    (rv : Value) :
    setConflictedValue base c.field.path (some rv) = .ok (overwrite rv c.path base) := by
  rw [setConflictedValue, Conflict.field, conflictPathSegments_renderPath,
    segmentsFrom_pathText _ hs]
  exact setSegments_eq_overwrite hne hs h rv

theorem applyChoices_placed {base : Value} {ds : List Decision} (h : Placed base ds)
    (hs : ∀ d ∈ ds, d.1.path ≠ [] ∧ ∀ s ∈ d.1.path, s.Addressable) :
    applyChoices base (ds.map printed) = .ok (ds.foldl Decision.apply base) := by
  induction ds generalizing base with
  | nil => rfl
  | cons d ds ih =>
    have hrest := ih h.tail fun e he => hs e (List.mem_cons_of_mem d he)
    obtain ⟨lv, rv, -, hr, hloc⟩ := h.located d List.mem_cons_self
    obtain ⟨hne, hadd⟩ := hs d List.mem_cons_self
    rw [List.map_cons, List.foldl_cons, ← hrest, printed, applyChoices]
    cases hc : d.2 with
    | remote =>
      have hset := setConflictedValue_addressable hne hadd hloc rv
      have happly : d.apply base = overwrite rv d.1.path base := by
        simp only [Decision.apply, hc, hr]
      have hfield : d.1.field.remote = some rv := hr
      rw [if_pos rfl, hfield, hset, happly]
    | localValue =>
      have happly : d.apply base = base := by simp only [Decision.apply, hc]
      rw [if_neg (by simp), happly]

theorem applyChoices_skip (base : Value) {ds : List Decision} (h : ∀ d ∈ ds, d.2 = .localValue)
    (rest : List (ConflictedField × ConflictChoice)) :
    applyChoices base (ds.map printed ++ rest) = applyChoices base rest := by
  induction ds with
  | nil => rfl
  | cons d ds ih =>
    rw [List.map_cons, List.cons_append, printed, applyChoices, h d List.mem_cons_self,
      if_neg (by simp)]
    exact ih fun e he => h e (List.mem_cons_of_mem d he)

/-- The remote value of a conflict whose path is not read back never lands at its location. -/
theorem setConflictedValue_misread {c : Conflict}
    (hbad : ¬(c.path ≠ [] ∧ ∀ s ∈ c.path, s.Addressable)) (hk : KeepsIds c.path)
    {base result lv rv : Value} (hloc : locate c.path base = some lv) (hne : lv ≠ rv)
    (hset : setConflictedValue base c.field.path (some rv) = .ok result) :
    result ≠ overwrite rv c.path base := by
  rw [setConflictedValue, Conflict.field, conflictPathSegments_renderPath] at hset
  split at hset
  · cases hset
  · rename_i segments hread
    by_cases hnil : c.path = []
    · rw [hnil] at hread
      cases hread
      cases hset
    · have hstep : ¬∀ s ∈ c.path, s.Addressable := fun h => hbad ⟨hnil, h⟩
      exact setSegments_misread (misread_of_not_addressable hstep hread) hk hloc hne hset

theorem zip_printed (cs : List Conflict) (choices : List ConflictChoice) :
    (cs.map Conflict.field).zip choices = (cs.zip choices).map printed := by
  rw [List.zip_map_left]
  rfl

theorem placed_clashes (a l r : Value) {choices : List ConflictChoice}
    (hlen : choices.length = (clashes a l r).length) :
    Placed (merged a l r) ((clashes a l r).zip choices) := by
  have hfst : ((clashes a l r).zip choices).map Prod.fst = clashes a l r :=
    List.map_fst_zip (by omega)
  have hmem : ∀ d ∈ (clashes a l r).zip choices, d.1 ∈ clashes a l r :=
    fun d hd => (List.of_mem_zip hd).1
  refine ⟨fun d hd => ?_, fun d hd => clash_keepsIds (hmem d hd), ?_⟩
  · obtain ⟨lv, rv, hl, hr, _, hloc⟩ := clash_located (hmem d hd)
    exact ⟨lv, rv, hl, hr, hloc⟩
  · have hdis := clashes_disjoint a l r
    rw [Conflicts.Disjoint, ← hfst] at hdis
    exact (List.pairwise_map (R := fun c d : Conflict => Apart c.path d.path)).mp hdis

/-- Choices reach exactly their conflicts if and only if every conflict path is read back. -/
theorem resolvesAsChosen_iff (a l r : Value) :
    ResolvesAsChosen a l r ↔ AddressableConflicts a l r := by
  rw [addressableConflicts_iff]
  constructor
  · intro h c hc
    by_contra hbad
    obtain ⟨before, after, hsplit⟩ := List.append_of_mem hc
    obtain ⟨lv, rv, -, hr, hne, hloc⟩ := clash_located hc
    have hm : merge3 a l r = .conflict (merged a l r) ((clashes a l r).map Conflict.field) :=
      merge3_conflict_iff.mpr ⟨by simp [hsplit], rfl, rfl⟩
    -- choose the remote side for this conflict only
    let choices := List.replicate before.length ConflictChoice.localValue ++
      .remote :: List.replicate after.length ConflictChoice.localValue
    have hlen : choices.length = ((clashes a l r).map Conflict.field).length := by
      simp [choices, hsplit]
    obtain ⟨result, hres, happ⟩ := h _ _ hm choices hlen
    have hzip : (clashes a l r).zip choices =
        before.zip (List.replicate before.length ConflictChoice.localValue) ++
          (c, .remote) :: after.zip (List.replicate after.length ConflictChoice.localValue) := by
      rw [hsplit, List.zip_append (by simp)]
      rfl
    have hlocal : ∀ cs : List Conflict, ∀ d ∈ cs.zip (List.replicate cs.length
        ConflictChoice.localValue), d.2 = .localValue :=
      fun cs d hd => List.eq_of_mem_replicate (List.of_mem_zip hd).2
    have hresult : result = overwrite rv c.path (merged a l r) := by
      rw [happ.overwritten, hzip, List.foldl_append, foldl_apply_local (hlocal before),
        List.foldl_cons, foldl_apply_local (hlocal after)]
      simp only [Decision.apply, hr]
    rw [resolveConflicts, if_neg (by simp [hlen]), zip_printed, hzip, List.map_append,
      applyChoices_skip _ (hlocal before), List.map_cons, printed, applyChoices, if_pos rfl] at hres
    have hfield : c.field.remote = some rv := hr
    rw [hfield] at hres
    split at hres
    · cases hres
    · rename_i base hset
      have hskip := applyChoices_skip base (hlocal after) []
      rw [List.append_nil] at hskip
      rw [hskip] at hres
      cases hres
      exact setConflictedValue_misread hbad (clash_keepsIds hc) hloc hne hset hresult
  · intro h base conflicts hm choices hlen
    obtain ⟨-, rfl, rfl⟩ := merge3_conflict_iff.mp hm
    rw [List.length_map] at hlen
    have hplaced := placed_clashes a l r hlen
    refine ⟨_, ?_, hplaced.appliesExactly⟩
    rw [resolveConflicts, if_neg (by simp [hlen]), zip_printed]
    exact applyChoices_placed hplaced fun d hd => h d.1 (List.of_mem_zip hd).1

def sampleGain (gain : String) : Value := .object [("kick.wav", .string gain)]

def gainConflict : ConflictedField :=
  ⟨"kick.wav", some (.string "0 dB"), some (.string "-3 dB"), some (.string "-6 dB")⟩

/-- A key with a dot in it: the remote choice ends in an error. -/
theorem dotted_key_unresolved :
    merge3 (sampleGain "0 dB") (sampleGain "-3 dB") (sampleGain "-6 dB") =
        .conflict (sampleGain "-3 dB") [gainConflict] ∧
      resolveConflicts (sampleGain "-3 dB") [gainConflict] [.remote] =
        .error "conflict path 'kick.wav' is unavailable at 'kick'" ∧
      ¬ResolvesAsChosen (sampleGain "0 dB") (sampleGain "-3 dB") (sampleGain "-6 dB") := by
  have hmerge : merge3 (sampleGain "0 dB") (sampleGain "-3 dB") (sampleGain "-6 dB") =
      .conflict (sampleGain "-3 dB") [gainConflict] := by decide
  have herr : resolveConflicts (sampleGain "-3 dB") [gainConflict] [.remote] =
      .error "conflict path 'kick.wav' is unavailable at 'kick'" := by decide
  refine ⟨hmerge, herr, fun h => ?_⟩
  obtain ⟨result, hres, -⟩ := h _ _ hmerge [.remote] rfl
  rw [herr] at hres
  cases hres

end AuruPm
