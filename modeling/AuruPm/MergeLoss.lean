import AuruPm.Location

/-!
# What the merge keeps and what it reports

A change that one side alone makes at a location reached by keys and ids survives a clean
merge, and a clash of both sides is reported at its own location, with one exception: when
both sides add an element with the same id, the third pass of `merge_arrays_by_id` skips the
remote one without a word.
-/

namespace AuruPm

set_option autoImplicit false

open SortedAssoc Value

/-- What becomes of one id, present or not in each version. -/
def mergedElementAt : Option Value → Option Value → Option Value → Option Value
  | some av, l, r => mergedElement av l r
  | none, some lv, _ => some lv
  | none, none, r => r

theorem byId_eq_of_mem_iff {arr : List Value} {x : String} {o : Option Value}
    (h : ∀ v, v ∈ arr ∧ idOf v = x ↔ o = some v) : byId arr x = o := by
  cases o with
  | none =>
    rw [byId_eq_none_iff]
    intro v hv hx
    simpa using (h v).mp ⟨hv, hx⟩
  | some w =>
    obtain ⟨hw, hx⟩ := (h w).mpr rfl
    exact byId_eq_some_of_unique hw hx fun v hv hvx => (Option.some.inj ((h v).mp ⟨hv, hvx⟩)).symm

theorem byId_eq_some_iff {arr : List Value} (hd : (arr.map idOf).Nodup) {x : String} {v : Value} :
    byId arr x = some v ↔ v ∈ arr ∧ idOf v = x :=
  ⟨byId_mem, fun h => h.2 ▸ byId_of_mem hd h.1⟩

section Elements
variable {a l r : List Value}

theorem mem_mergedElements (hid : idKeyed a l r = true) (hda : (a.map idOf).Nodup)
    (hdl : (l.map idOf).Nodup) (hdr : (r.map idOf).Nodup) (x : String) (v : Value) :
    v ∈ mergedElements a l r ∧ idOf v = x ↔
      mergedElementAt (byId a x) (byId l x) (byId r x) = some v := by
  cases ha : byId a x with
  | some av =>
    obtain ⟨hmem, rfl⟩ := byId_mem ha
    simp only [mergedElementAt]
    constructor
    · rintro ⟨hv, hx⟩
      rcases List.mem_append.mp hv with hv | hv
      · obtain ⟨av', hav', hm⟩ := List.mem_filterMap.mp hv
        have hi := idOf_mergedElement hid hav' hm
        have heq : av' = av := List.inj_on_of_nodup_map hda hav' hmem (hi.symm.trans hx)
        subst heq
        exact hm
      · rcases List.mem_append.mp hv with hv | hv
        · have := (List.mem_filter.mp hv).2
          simp [hx, ha] at this
        · have := (List.mem_filter.mp hv).2
          simp [hx, ha] at this
    · intro hm
      exact ⟨List.mem_append_left _ (List.mem_filterMap.mpr ⟨av, hmem, hm⟩),
        idOf_mergedElement hid hmem hm⟩
  | none =>
    have hshared : ∀ v, v ∈ a.filterMap (fun av =>
        mergedElement av (byId l (idOf av)) (byId r (idOf av))) → idOf v ≠ x := by
      intro v hv hx
      obtain ⟨av, hav, hm⟩ := List.mem_filterMap.mp hv
      exact byId_eq_none_iff.mp ha av hav ((idOf_mergedElement hid hav hm).symm.trans hx)
    have hadd : v ∈ mergedElements a l r ∧ idOf v = x ↔
        (v ∈ l ∧ idOf v = x) ∨ (v ∈ r ∧ idOf v = x ∧ byId l x = none) := by
      simp only [mergedElements, additions, List.mem_append, List.mem_filter, Option.isNone_iff_eq_none,
        Bool.and_eq_true]
      constructor
      · rintro ⟨hv | ⟨hv, _⟩ | ⟨hv, _, hl⟩, rfl⟩
        · exact absurd rfl (hshared v hv)
        · exact Or.inl ⟨hv, rfl⟩
        · exact Or.inr ⟨hv, rfl, hl⟩
      · rintro (⟨hv, rfl⟩ | ⟨hv, rfl, hl⟩)
        · exact ⟨Or.inr (Or.inl ⟨hv, ha⟩), rfl⟩
        · exact ⟨Or.inr (Or.inr ⟨hv, ha, hl⟩), rfl⟩
    rw [hadd]
    cases hl : byId l x with
    | some lv =>
      simp only [mergedElementAt, reduceCtorEq, and_false, or_false]
      rw [← byId_eq_some_iff hdl, hl]
    | none =>
      have hno : ¬(v ∈ l ∧ idOf v = x) := fun h => byId_eq_none_iff.mp hl v h.1 h.2
      simp only [mergedElementAt, hno, and_true, false_or]
      exact (byId_eq_some_iff hdr).symm

theorem byId_mergedElements (hid : idKeyed a l r = true) (hda : (a.map idOf).Nodup)
    (hdl : (l.map idOf).Nodup) (hdr : (r.map idOf).Nodup) (x : String) :
    byId (mergedElements a l r) x = mergedElementAt (byId a x) (byId l x) (byId r x) :=
  byId_eq_of_mem_iff (mem_mergedElements hid hda hdl hdr x)

end Elements

/-- An object only one side changed is that side's object. -/
theorem merged_left {a l : Value} (hl : l.wf = true)
    (h : ¬(a.isArray = true ∧ l.isArray = true)) : merged a l a = l := by
  by_cases hleaf : IsLeaf a l a
  · rw [merged_leaf hleaf]
    split
    · rename_i heq
      exact heq.symm
    · rfl
  · cases a with
    | object fa =>
      obtain ⟨fl, _, rfl, _⟩ := objects_of_not_leaf hleaf
      rw [merged_object]
      refine congrArg _ (ext (sorted_mergedFields _ _ _) (wf_object.mp hl).1 fun k => ?_)
      simp
    | array xa =>
      obtain ⟨_, _, rfl, _⟩ := arrays_of_not_leaf hleaf
      exact absurd ⟨rfl, rfl⟩ h
    | _ => exact absurd (by simp [IsLeaf, isObject, isArray]) hleaf

theorem merged_right {a r : Value} (hr : r.wf = true)
    (h : ¬(a.isArray = true ∧ r.isArray = true)) : merged a a r = r := by
  by_cases hleaf : IsLeaf a a r
  · rw [merged_leaf hleaf, if_pos rfl]
  · cases a with
    | object fa =>
      obtain ⟨_, fr, _, rfl⟩ := objects_of_not_leaf hleaf
      rw [merged_object]
      refine congrArg _ (ext (sorted_mergedFields _ _ _) (wf_object.mp hr).1 fun k => ?_)
      simp
    | array xa =>
      obtain ⟨_, _, _, rfl⟩ := arrays_of_not_leaf hleaf
      exact absurd ⟨rfl, rfl⟩ h
    | _ => exact absurd (by simp [IsLeaf, isObject, isArray]) hleaf

/-- What a clean merge owes to a location, given its value on each side: a change of one side
alone is there, and an edit beats a deletion. -/
structure Kept (a l r m : Option Value) : Prop where
  local_change : r = a → l ≠ a → m = l
  remote_change : l = a → r ≠ a → m = r
  remote_edit : a.isSome = true → l = none → r ≠ a → m = r
  local_edit : a.isSome = true → r = none → l ≠ a → m = l

theorem Kept.of_local_same (a r : Option Value) : Kept a a r r :=
  ⟨fun _ h => absurd rfl h, fun _ _ => rfl, fun _ _ _ => rfl, fun _ _ h => absurd rfl h⟩

theorem Kept.of_remote_same (a l : Option Value) : Kept a l a l :=
  ⟨fun _ _ => rfl, fun _ h => absurd rfl h, fun _ _ h => absurd rfl h, fun _ _ _ => rfl⟩

theorem mergedAt_kept (a l r : Option Value) : Kept a l r (mergedAt a l r) := by
  by_cases hl : l = a
  · subst hl
    simpa using Kept.of_local_same l r
  by_cases hr : r = a
  · subst hr
    simpa using Kept.of_remote_same r l
  refine ⟨fun h => absurd h hr, fun h => absurd h hl, ?_, ?_⟩
  · rintro ha rfl _
    obtain ⟨av, rfl⟩ := Option.isSome_iff_exists.mp ha
    cases r with
    | none => rfl
    | some rv => exact mergedAt_local_deleted fun h => hr (by rw [h])
  · rintro ha rfl _
    obtain ⟨av, rfl⟩ := Option.isSome_iff_exists.mp ha
    cases l with
    | none => rfl
    | some lv => exact mergedAt_remote_deleted fun h => hl (by rw [h])

def TidyOption (o : Option Value) : Prop := ∀ v, o = some v → Tidy v

theorem mergedElementAt_kept {a l r : Option Value} (hl : TidyOption l) (hr : TidyOption r)
    (harr : ∀ v, a = some v → v.isArray = false) : Kept a l r (mergedElementAt a l r) := by
  cases a with
  | none =>
    refine ⟨?_, ?_, fun h => by simp at h, fun h => by simp at h⟩
    · rintro rfl _
      cases l <;> rfl
    · rintro rfl _
      rfl
  | some av =>
    have hav := harr av rfl
    have hleft : ∀ lv, l = some lv → merged av lv av = lv := fun lv h =>
      merged_left (hl lv h).wf (by simp [hav])
    have hright : ∀ rv, r = some rv → merged av av rv = rv := fun rv h =>
      merged_right (hr rv h).wf (by simp [hav])
    cases l with
    | none =>
      cases r with
      | none => exact ⟨fun h => by simp at h, fun h => by simp at h, fun _ _ _ => rfl, fun _ _ _ => rfl⟩
      | some rv =>
        by_cases h : rv = av
        · subst h
          simpa [mergedElementAt, mergedElement] using Kept.of_remote_same (some rv) none
        · refine ⟨fun he => absurd (Option.some.inj he) h, fun he => by simp at he, ?_,
            fun _ he => by simp at he⟩
          intro _ _ _
          simp [mergedElementAt, mergedElement, h]
    | some lv =>
      cases r with
      | none =>
        by_cases h : lv = av
        · subst h
          simpa [mergedElementAt, mergedElement] using Kept.of_local_same (some lv) none
        · refine ⟨fun he => by simp at he, fun he => absurd (Option.some.inj he) h,
            fun _ he => by simp at he, ?_⟩
          intro _ _ _
          simp [mergedElementAt, mergedElement, h]
      | some rv =>
        refine ⟨?_, ?_, fun _ he => by simp at he, fun _ he => by simp at he⟩
        · intro he _
          cases he
          exact congrArg some (hleft lv rfl)
        · intro he _
          cases he
          exact congrArg some (hright rv rfl)

/-- The walk makes this of the three optional values, at a key or at an element. -/
inductive MergesTo : Option Value → Option Value → Option Value → Option Value → Prop
  | field (a l r : Option Value) : MergesTo a l r (mergedAt a l r)
  | element (a l r : Option Value) (harr : ∀ v, a = some v → v.isArray = false) :
      MergesTo a l r (mergedElementAt a l r)

theorem MergesTo.kept {a l r m : Option Value} (h : MergesTo a l r m) (hl : TidyOption l)
    (hr : TidyOption r) : Kept a l r m := by
  cases h with
  | field => exact mergedAt_kept a l r
  | element harr => exact mergedElementAt_kept hl hr harr

/-- A key or id step, not an array index. -/
def Named (path : List ConflictPathSegment) : Prop := ∀ i, .index i ∉ path

/-- One step into a merged container leads to what the walk makes of that key or element. -/
theorem merged_at_step {a l r : Value} {s : ConflictPathSegment} {path : List ConflictPathSegment}
    {a' l' r' : Option Value} (h : Reaches (some a) (some l) (some r) (s :: path) a' l' r')
    (hs : ∀ i, s ≠ .index i) (ha : Tidy a) (hl : Tidy l) (hr : Tidy r) :
    ∃ a₁ l₁ r₁ m₁, Reaches a₁ l₁ r₁ path a' l' r' ∧ MergesTo a₁ l₁ r₁ m₁ ∧
      (merged a l r).at? (s :: path) = m₁.bind (·.at? path) ∧
      TidyOption a₁ ∧ TidyOption l₁ ∧ TidyOption r₁ := by
  cases h with
  | @key fa fl fr k _ _ _ _ rest =>
    refine ⟨_, _, _, _, rest, .field _ _ _, ?_, fun _ => ha.field, fun _ => hl.field,
      fun _ => hr.field⟩
    rw [merged_object, at?_key, get?_mergedFields]
  | @id xa xl xr x _ _ _ _ hid rest =>
    obtain ⟨hia, hil, hir⟩ := idKeyed_iff.mp hid
    refine ⟨_, _, _, _, rest, .element _ _ _ ?_, ?_, fun v hv => ha.element (byId_mem hv).1,
      fun v hv => hl.element (byId_mem hv).1, fun v hv => hr.element (byId_mem hv).1⟩
    · intro v hv
      obtain ⟨fs, rfl, _⟩ := object_of_idField (idField_of_allHaveId hia (byId_mem hv).1)
      rfl
    · rw [merged_elements hid, at?_id]
      exact congrArg (Option.bind · _)
        (byId_mergedElements hid (ha.nodup hia) (hl.nodup hil) (hr.nodup hir) x)
  | @index _ _ _ i => exact absurd rfl (hs i)

theorem kept_of_mergesTo {path : List ConflictPathSegment} {a l r m a' l' r' : Option Value}
    (h : Reaches a l r path a' l' r') (hn : Named path) (hm : MergesTo a l r m)
    (ha : TidyOption a) (hl : TidyOption l) (hr : TidyOption r) :
    Kept a' l' r' (m.bind (·.at? path)) := by
  induction path generalizing a l r m with
  | nil =>
    cases h
    simpa using hm.kept hl hr
  | cons s path ih =>
    have hrest : Named path := fun i hi => hn i (List.mem_cons_of_mem s hi)
    have hs : ∀ i, s ≠ .index i := fun i hi => hn i (hi ▸ List.mem_cons_self)
    obtain ⟨av, lv, rv, rfl, rfl, rfl⟩ : ∃ av lv rv, a = some av ∧ l = some lv ∧ r = some rv := by
      cases h with
      | key => exact ⟨_, _, _, rfl, rfl, rfl⟩
      | id => exact ⟨_, _, _, rfl, rfl, rfl⟩
      | index => exact ⟨_, _, _, rfl, rfl, rfl⟩
    have hdeep : Kept a' l' r' ((merged av lv rv).at? (s :: path)) := by
      obtain ⟨a₁, l₁, r₁, m₁, hreach, hm₁, hat, ha₁, hl₁, hr₁⟩ :=
        merged_at_step h hs (ha av rfl) (hl lv rfl) (hr rv rfl)
      rw [hat]
      exact ih hreach hrest hm₁ ha₁ hl₁ hr₁
    cases hm with
    | element => exact hdeep
    | field =>
      -- the key loop takes a side whole when the other left the key alone
      by_cases hlc : lv = av
      · subst hlc
        have hla : l' = a' := h.local_at.symm.trans h.ancestor_at
        rw [mergedAt_right, h.remote_at, hla]
        exact Kept.of_local_same a' r'
      by_cases hrc : rv = av
      · subst hrc
        have hra : r' = a' := h.remote_at.symm.trans h.ancestor_at
        rw [mergedAt_left, h.local_at, hra]
        exact Kept.of_remote_same a' l'
      rw [mergedAt_changed hlc hrc]
      exact hdeep

/-- Both sides changed a leaf, each to its own value. -/
def LeafClash (a l r : Value) (path : List ConflictPathSegment) : Prop :=
  ∃ av lv rv, Reaches (some a) (some l) (some r) path (some av) (some lv) (some rv) ∧
    IsLeaf av lv rv ∧ lv ≠ av ∧ rv ≠ av ∧ lv ≠ rv

/-- Both sides added the key or element, each with its own content. -/
def AddClash (a l r : Value) (path : List ConflictPathSegment) (s : ConflictPathSegment) : Prop :=
  ∃ lv rv, Reaches (some a) (some l) (some r) (path ++ [s]) none (some lv) (some rv) ∧ lv ≠ rv

/-- The outcome is a conflict that lists this location. -/
def Lists (a l r : Value) (path : List ConflictPathSegment) : Prop :=
  ∃ base conflicts, merge3 a l r = .conflict base conflicts ∧
    ∃ c ∈ clashes a l r, c.location = path ∧ c.field ∈ conflicts

/-- A change of one side alone survives a clean merge, an edit beats a deletion, and every
clash is listed. The whole document counts as a location unless it is an array. -/
structure NoSilentLoss (a l r : Value) : Prop where
  kept : ∀ m, merge3 a l r = .clean m → ∀ path a' l' r', Named path →
    Reaches (some a) (some l) (some r) path a' l' r' →
    (path = [] → ¬(a.isArray = true ∧ l.isArray = true ∧ r.isArray = true)) →
    Kept a' l' r' (m.at? path)
  leaf_listed : ∀ path, LeafClash a l r path → Lists a l r path
  key_listed : ∀ path k, AddClash a l r path (.key k) → Lists a l r (path ++ [.key k])
  id_listed : ∀ path x, AddClash a l r path (.id x) → Lists a l r (path ++ [.id x])

/-- Both sides add an element with this id, with different content. -/
def RivalElements (a l r : Value) : Prop := ∃ path x, AddClash a l r path (.id x)

theorem lists_of_mem {a l r : Value} {c : Conflict} (h : c ∈ clashes a l r) :
    Lists a l r c.location :=
  ⟨_, _, merge3_conflict_iff.mpr ⟨List.ne_nil_of_mem h, rfl, rfl⟩, c, h, rfl,
    List.mem_map_of_mem h⟩

theorem merged_kept {a l r : Value} (ha : Tidy a) (hl : Tidy l) (hr : Tidy r)
    {path : List ConflictPathSegment} {a' l' r' : Option Value} (hn : Named path)
    (h : Reaches (some a) (some l) (some r) path a' l' r')
    (hroot : path = [] → ¬(a.isArray = true ∧ l.isArray = true ∧ r.isArray = true)) :
    Kept a' l' r' ((merged a l r).at? path) := by
  cases path with
  | nil =>
    cases h
    rw [at?_nil]
    refine ⟨?_, ?_, fun _ he => by simp at he, fun _ he => by simp at he⟩
    · intro he _
      cases he
      exact congrArg some (merged_left hl.wf fun h => hroot rfl ⟨h.1, h.2, h.1⟩)
    · intro he _
      cases he
      exact congrArg some (merged_right hr.wf fun h => hroot rfl ⟨h.1, h.1, h.2⟩)
  | cons s path =>
    obtain ⟨_, _, _, _, hreach, hm, hat, ha₁, hl₁, hr₁⟩ :=
      merged_at_step h (fun i hi => hn i (hi ▸ List.mem_cons_self)) ha hl hr
    rw [hat]
    exact kept_of_mergesTo hreach (fun i hi => hn i (List.mem_cons_of_mem s hi)) hm ha₁ hl₁ hr₁

theorem leafClash_listed {a l r : Value} {path : List ConflictPathSegment}
    (h : LeafClash a l r path) : Lists a l r path := by
  obtain ⟨av, lv, rv, hreach, hleaf, hl, hr, hlr⟩ := h
  obtain ⟨steps, hv, hp⟩ := hreach.visits hl hr
  have hmem := hv.mem_clashes (NodeClash.leaf hleaf hl hr hlr).mem_clashes
  have hloc := lists_of_mem hmem
  simpa [Conflict.location, Conflict.under, hp] using hloc

theorem Reaches.eq_of_nil {a l r a' l' r' : Option Value} (h : Reaches a l r [] a' l' r') :
    a = a' ∧ l = l' ∧ r = r' := by
  cases h
  exact ⟨rfl, rfl, rfl⟩

/-- The containers of an added key. -/
theorem Reaches.last_key {a l r a' l' r' : Option Value} {path : List ConflictPathSegment}
    {k : String} (h : Reaches a l r (path ++ [.key k]) a' l' r') :
    ∃ fa fl fr, Reaches a l r path (some (.object fa)) (some (.object fl)) (some (.object fr)) ∧
      a' = get? fa k ∧ l' = get? fl k ∧ r' = get? fr k := by
  induction path generalizing a l r with
  | nil =>
    cases h with
    | key rest =>
      obtain ⟨ha, hl, hr⟩ := rest.eq_of_nil
      exact ⟨_, _, _, .here _ _ _, ha.symm, hl.symm, hr.symm⟩
  | cons s path ih =>
    cases h with
    | key rest =>
      obtain ⟨fa, fl, fr, hreach, he⟩ := ih rest
      exact ⟨fa, fl, fr, .key hreach, he⟩
    | id hid rest =>
      obtain ⟨fa, fl, fr, hreach, he⟩ := ih rest
      exact ⟨fa, fl, fr, .id hid hreach, he⟩
    | index hid rest =>
      obtain ⟨fa, fl, fr, hreach, he⟩ := ih rest
      exact ⟨fa, fl, fr, .index hid hreach, he⟩

theorem keyClash_listed {a l r : Value} {path : List ConflictPathSegment} {k : String}
    (h : AddClash a l r path (.key k)) : Lists a l r (path ++ [.key k]) := by
  obtain ⟨lv, rv, hreach, hlr⟩ := h
  obtain ⟨fa, fl, fr, hcontainer, ha, hl, hr⟩ := hreach.last_key
  have hlc : Value.object fl ≠ .object fa := by
    intro he
    cases he
    rw [← ha] at hl
    cases hl
  have hrc : Value.object fr ≠ .object fa := by
    intro he
    cases he
    rw [← ha] at hr
    cases hr
  obtain ⟨steps, hv, hp⟩ := hcontainer.visits hlc hrc
  have hmem := hv.mem_clashes (NodeClash.added ha.symm hl.symm hr.symm hlr).mem_clashes
  have hloc := lists_of_mem hmem
  simpa [Conflict.location, Conflict.under, hp, PathStep.segment] using hloc

/-- The walk descends from an element into an object. -/
theorem Visits.last_element {a l r a' l' r' : Value} {path : List PathStep} {x : String} {n : Nat}
    (h : Visits a l r (path ++ [.element x n]) a' l' r') : ¬IsLeaf a' l' r' := by
  induction path generalizing a l r with
  | nil =>
    cases h with
    | element hid hl hr rest =>
      cases rest
      obtain ⟨ia, il, ir⟩ := idKeyed_iff.mp hid
      obtain ⟨fa, rfl, _⟩ := object_of_idField (idField_of_allHaveId (v := a') ia (by simp))
      obtain ⟨fl, rfl, _⟩ := object_of_idField (idField_of_allHaveId il (byId_mem hl).1)
      obtain ⟨fr, rfl, _⟩ := object_of_idField (idField_of_allHaveId ir (byId_mem hr).1)
      exact fun hleaf => hleaf.1 ⟨rfl, rfl, rfl⟩
  | cons s path ih =>
    cases h with
    | field _ _ _ _ _ rest => exact ih rest
    | element _ _ _ rest => exact ih rest
    | index _ _ rest => exact ih rest

/-- No conflict sits at an element: the walk always descends into one. -/
theorem location_ne_element {a l r : Value} {c : Conflict} (h : c ∈ clashes a l r)
    (path : List ConflictPathSegment) (x : String) : c.location ≠ path ++ [.id x] := by
  obtain ⟨steps, a', l', r', d, hv, hd, rfl⟩ := mem_clashes_iff.mp h
  intro heq
  cases hd with
  | leaf hleaf =>
    simp only [Conflict.location, Conflict.under, List.append_nil] at heq
    obtain ⟨front, last, rfl, -, hlast⟩ := List.map_eq_append_iff.mp heq
    obtain ⟨s, rfl, hs⟩ := List.map_eq_singleton_iff.mp hlast
    cases s with
    | element y n => exact hv.last_element hleaf
    | key k => simp [PathStep.segment] at hs
    | index i => simp [PathStep.segment] at hs
  | added =>
    simp only [Conflict.location, Conflict.under, List.map_append, List.map_cons, List.map_nil,
      PathStep.segment] at heq
    have := List.append_inj_right' heq rfl
    simp at this

def trackNamed (name : String) : Value :=
  .object [("id", .string "track-1"), ("name", .string name)]

end AuruPm
