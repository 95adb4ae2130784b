import AuruPm.RestorePublish

/-!
# Merging the previous copy

Once the previous tree is moved aside nothing touches it, and the merge adds to the restore only what
it did not find there. What it fails with is a failed step, or its refusal of a link.
-/

namespace AuruPm

set_option autoImplicit false

open FileTree Threads

namespace Restore

variable {hashOf : Bytes → ContentHash} {display : Place → List String → String}

/-! Steps that only look. -/

def Looks : TreeOp → Prop
  | .pathExists _ _ => True
  | .isDir _ _ => True
  | .readDir _ _ => True
  | .nextEntry _ _ => True
  | .symlinkMetadata _ _ => True
  | .hashFile _ _ => True
  | _ => False

/-- The trees stand as they stood. -/
structure Looked (s s' : Site) : Prop where
  places : s'.places = s.places
  hashed : ∀ file ∈ s.hashed, file ∈ s'.hashed
  failures : s.failures ≤ s'.failures

theorem Looked.rfl {s : Site} : Looked s s := ⟨Eq.refl _, fun _ h => h, le_refl _⟩

theorem Looked.trans {s s' s'' : Site} (h : Looked s s') (h' : Looked s' s'') : Looked s s'' :=
  ⟨h'.places.trans h.places, fun file hf => h'.hashed file (h.hashed file hf),
    h.failures.trans h'.failures⟩

theorem Looked.find {s s' : Site} (h : Looked s s') (place : Place) (path : List String) :
    s'.find place path = s.find place path := by
  rw [Site.find, h.places, Site.find]

theorem looked_fail (s : Site) : Looked s s.fail :=
  ⟨Eq.refl _, fun _ h => h, Nat.le_succ _⟩

theorem effect_looked {s s' : Site} {op : TreeOp} {a : op.Answer} (hop : Looks op)
    (h : effect hashOf s op = some (a, s')) : Looked s s' := by
  cases op with
  | pathExists place path =>
    cases h
    exact Looked.rfl
  | isDir place path =>
    cases h
    exact Looked.rfl
  | readDir place path =>
    obtain ⟨entries, -, h⟩ := Option.map_eq_some_iff.mp h
    cases h
    exact Looked.rfl
  | nextEntry place path =>
    cases h
    exact Looked.rfl
  | symlinkMetadata place path =>
    obtain ⟨t, -, h⟩ := Option.map_eq_some_iff.mp h
    cases h
    exact Looked.rfl
  | hashFile place path =>
    obtain ⟨bytes, -, h⟩ := Option.map_eq_some_iff.mp h
    cases h
    exact ⟨rfl, fun _ hf => List.mem_cons_of_mem _ hf, le_refl _⟩
  | _ => cases hop

theorem Step.looked {s s' : Site} {op : TreeOp} {r : Except String op.Answer} (hop : Looks op)
    (h : Step hashOf s op r s') : Looked s s' := by
  cases h with
  | ok h => exact effect_looked hop h
  | failed => exact looked_fail s
  | torn h => cases hop

theorem Step.effect_eq {s s' : Site} {op : TreeOp} {a : op.Answer}
    (h : Step hashOf s op (.ok a) s') : effect hashOf s op = some (a, s') := by
  cases h with
  | ok h => exact h

/-- A step that fails is counted. -/
theorem Step.counted {s s' : Site} {op : TreeOp} {error : String}
    (h : Step hashOf s op (.error error) s') : s.failures + 1 ≤ s'.failures := by
  cases h with
  | failed => exact le_refl _
  | torn h error =>
    obtain ⟨t, -, rfl⟩ := Option.map_eq_some_iff.mp h
    exact le_refl _

/-! Rules for calls. -/

section Rules
variable {α β : Type} {may : Site → TreeOp → Prop} {post : Except RestoreError α → Site → Prop}

theorem ends {a : α} {s : Site} (h : post (.ok a) s) :
    Meets Eq (Step hashOf) may post (pure a : RestoreProg α) s := by
  intro s' hs
  cases hs
  exact h

theorem fails {error : RestoreError} {s : Site} (h : post (.error error) s) :
    Meets Eq (Step hashOf) may post (.fail error : RestoreProg α) s := by
  intro s' hs
  cases hs
  exact h

theorem step_bind {op : TreeOp} {context : String} {f : op.Answer → RestoreProg α} {s : Site}
    (hmay : may s op)
    (hok : ∀ a s', effect hashOf s op = some (a, s') → Meets Eq (Step hashOf) may post (f a) s')
    (herr : ∀ text error s', Step hashOf s op (.error error) s' → post (.error ⟨text, false⟩) s') :
    Meets Eq (Step hashOf) may post (step op context >>= f) s := by
  apply Meets.run_bind
  · intro s₁ hs
    cases hs
    exact hmay
  · intro s₁ a s₂ hs hstep
    cases hs
    exact hok a s₂ hstep.effect_eq
  · intro s₁ e s₂ s₃ hs hstep hs'
    cases hs
    cases hs'
    exact herr _ e s₂ hstep

theorem look_bind {op : TreeOp} (hop : Looks op) {context : String} {f : op.Answer → RestoreProg α}
    {s : Site} (hmay : may s op)
    (hok : ∀ a s', effect hashOf s op = some (a, s') → Looked s s' →
      Meets Eq (Step hashOf) may post (f a) s')
    (herr : ∀ text s', Looked s s' → s.failures + 1 ≤ s'.failures → post (.error ⟨text, false⟩) s') :
    Meets Eq (Step hashOf) may post (step op context >>= f) s := by
  apply step_bind hmay
  · intro a s' h
    exact hok a s' h (effect_looked hop h)
  · intro text error s' h
    exact herr text s' (h.looked hop) h.counted

/-- Nothing is there to be found, unless a call failed. -/
def Seen (s s' : Site) (place : Place) (path : List String) (there : Bool) : Prop :=
  match there with
  | true => ∃ t, s.find place path = some t
  | false => (∀ t, s.find place path = some t → t.Dangling) ∨ s.failures + 1 ≤ s'.failures

theorem pathExists_bind {place : Place} {path : List String} {f : Bool → RestoreProg α} {s : Site}
    (hmay : may s (.pathExists place path))
    (h : ∀ there s', Looked s s' → Seen s s' place path there →
      Meets Eq (Step hashOf) may post (f there) s') :
    Meets Eq (Step hashOf) may post (pathExists place path >>= f) s := by
  intro s₁ hs
  cases hs
  refine ⟨hmay, fun r s₂ hstep => ?_⟩
  have hlooked : Looked s s₂ := hstep.looked (show Looks (.pathExists place path) from trivial)
  cases r with
  | error e => exact h false s₂ hlooked (Or.inr hstep.counted)
  | ok there =>
    apply h there s₂ hlooked
    cases hstep.effect_eq
    cases ht : s.find place path with
    | none =>
      left
      intro t h'
      rw [ht] at h'
      cases h'
    | some t =>
      by_cases hd : t.Dangling
      · simp only [Option.any_some, hd, not_true_eq_false, decide_false]
        left
        intro t' h'
        rw [ht] at h'
        cases h'
        exact hd
      · simp only [Option.any_some, hd, not_false_eq_true, decide_true]
        exact ⟨t, ht⟩

theorem isDir_bind {place : Place} {path : List String} {f : Bool → RestoreProg α} {s : Site}
    (hmay : may s (.isDir place path))
    (h : ∀ folder s', Looked s s' → Meets Eq (Step hashOf) may post (f folder) s') :
    Meets Eq (Step hashOf) may post (isDir place path >>= f) s := by
  intro s₁ hs
  cases hs
  refine ⟨hmay, fun r s₂ hstep => ?_⟩
  have hlooked : Looked s s₂ := hstep.looked (show Looks (.isDir place path) from trivial)
  cases r with
  | error e => exact h false s₂ hlooked
  | ok folder => exact h folder s₂ hlooked

end Rules

/-! What is to be shown. -/

section Safety
variable (hashOf) (previous : Option (DirTree Bytes)) (expected : List (List String × ContentHash))

/-- Every staged file was read back in the restore folder, and was as expected. -/
def Verified (s : Site) : Prop :=
  ∀ file ∈ expected, (Place.finalRoot, file.1, file.2) ∈ s.hashed

/-- The previous tree stands in the restore folder or in quarantine, until all is verified. An
empty folder holds nothing to be lost. -/
def Safe (s : Site) : Prop :=
  ∀ t, previous = some t → t ≠ .folder [] →
    s.places .finalRoot = some t ∨ (∃ copy, s.places (.quarantine copy) = some t) ∨ Verified expected s

/-- The expected files are there. -/
def Whole (s : Site) : Prop :=
  ∀ file ∈ expected, ∃ bytes,
    s.find .finalRoot file.1 = some (.file bytes) ∧ hashOf bytes = file.2

/-- The previous tree stands in quarantine and the restore in its folder, whole or after a failure. -/
structure Installed (copy : Nat) (s : Site) : Prop where
  kept : s.places (.quarantine copy) = previous
  whole : Whole hashOf expected s ∨ 1 ≤ s.failures

/-- What fails after so many failed steps, the refusal of a link counted with them. -/
def Blamed (n : Nat) (r : Except RestoreError Unit) (s : Site) : Prop :=
  ∀ error, r = .error error → n ≤ s.failures + error.refused.toNat

end Safety

variable {previous : Option (DirTree Bytes)} {expected : List (List String × ContentHash)} {copy : Nat}

theorem Safe.of_quarantine {s : Site} (h : s.places (.quarantine copy) = previous) :
    Safe previous expected s :=
  fun _ ht _ => Or.inr (Or.inl ⟨copy, h.trans ht⟩)

theorem Safe.of_final {s : Site} (h : s.places .finalRoot = previous) : Safe previous expected s :=
  fun _ ht _ => Or.inl (h.trans ht)

theorem Installed.safe {s : Site} (h : Installed hashOf previous expected copy s) :
    Safe previous expected s :=
  Safe.of_quarantine h.kept

theorem Whole.looked {s s' : Site} (h : Whole hashOf expected s) (hl : Looked s s') :
    Whole hashOf expected s' := by
  intro file hfile
  rw [hl.find]
  exact h file hfile

theorem Installed.looked {s s' : Site} (h : Installed hashOf previous expected copy s)
    (hl : Looked s s') : Installed hashOf previous expected copy s' where
  kept := by
    rw [hl.places]
    exact h.kept
  whole := h.whole.imp (·.looked hl) (·.trans hl.failures)

/-- A write in the restore folder where nothing stood. -/
theorem Installed.write {s s' : Site} {path : List String} {new : DirTree Bytes}
    (h : Installed hashOf previous expected copy s) (hw : s.write .finalRoot path new = some s')
    (hfree : s.find .finalRoot path = none ∨ 1 ≤ s.failures) :
    Installed hashOf previous expected copy s' := by
  obtain ⟨t, ht, rfl⟩ := Option.map_eq_some_iff.mp hw
  refine ⟨?_, ?_⟩
  · rw [Site.set_ne Place.noConfusion]
    exact h.kept
  · rcases h.whole with hwhole | hfailed
    · rcases hfree with hfree | hfailed
      · left
        intro file hfile
        obtain ⟨bytes, hbytes, hhash⟩ := hwhole file hfile
        refine ⟨bytes, ?_, hhash⟩
        rw [Site.find_set]
        exact treeAt_writeAt_file ht hfree hbytes
      · exact Or.inr hfailed
    · exact Or.inr hfailed

/-! The merge. -/

section Merge
variable (hashOf previous expected copy)

/-- What a part of the merge ends with. -/
def Merged (r : Except RestoreError Unit) (s : Site) : Prop :=
  Installed hashOf previous expected copy s ∧ Blamed 1 r s

/-- What a part of the merge does wherever it begins. -/
def Merges (x : RestoreProg Unit) : Prop :=
  ∀ s, Installed hashOf previous expected copy s →
    Meets Eq (Step hashOf) (fun s _ => Safe previous expected s)
      (Merged hashOf previous expected copy) x s

end Merge

theorem Blamed.ok (n : Nat) (s : Site) : Blamed n (.ok ()) s := by
  intro error h
  cases h

theorem Blamed.of_failed {n : Nat} {r : Except RestoreError Unit} {s : Site} (h : n ≤ s.failures) :
    Blamed n r s :=
  fun _ _ => Nat.le_add_right_of_le h

theorem Merges.bind {x : RestoreProg Unit} {f : Unit → RestoreProg Unit}
    (hx : Merges hashOf previous expected copy x) (hf : Merges hashOf previous expected copy (f ())) :
    Merges hashOf previous expected copy (x >>= f) := by
  intro s hs
  apply Meets.bind fun _ => rfl
  apply (hx s hs).weaken
  intro r s' hr
  cases r with
  | ok a => exact hf s' hr.1
  | error error => exact ⟨hr.1, fun _ h => by cases h; exact hr.2 error rfl⟩

theorem merges_done : Merges hashOf previous expected copy (pure ()) :=
  fun s hs => ends ⟨hs, Blamed.ok 1 s⟩

/-- A step of the merge that only looks. -/
theorem merges_look {op : TreeOp} (hop : Looks op) {context : String}
    {f : op.Answer → RestoreProg Unit} (hf : ∀ a, Merges hashOf previous expected copy (f a)) :
    Merges hashOf previous expected copy (step op context >>= f) := by
  intro s hs
  apply look_bind hop hs.safe
  · intro a s' _ hl
    exact hf a s' (hs.looked hl)
  · intro text s' hl hfailed
    exact ⟨hs.looked hl, Blamed.of_failed (by omega)⟩

theorem Site.write_fail {s s' : Site} {place : Place} {path : List String} {new : DirTree Bytes}
    (h : s.write place path new = some s') : s.fail.write place path new = some s'.fail := by
  obtain ⟨t, ht, rfl⟩ := Option.map_eq_some_iff.mp h
  exact Option.map_eq_some_iff.mpr ⟨t, ht, rfl⟩

/-- A copy that fails is counted, and the merge may go on from what it leaves. -/
theorem Step.copy_error {s s' : Site} {path : List String} {error : String}
    (h : Step hashOf s (.copy (.quarantine copy) .finalRoot path) (.error error) s')
    (hs : Installed hashOf previous expected copy s) :
    Installed hashOf previous expected copy s' ∧ 1 ≤ s'.failures := by
  have hfailed : 1 ≤ s'.failures := le_trans (Nat.le_add_left 1 s.failures) h.counted
  cases h with
  | failed => exact ⟨hs.looked (looked_fail s), hfailed⟩
  | torn hw =>
    have hw' := Site.write_fail hw
    exact ⟨(hs.looked (looked_fail s)).write hw' (Or.inr (Nat.le_add_left 1 _)), hfailed⟩

/-- A copy is made where no file was, of the file in quarantine. -/
theorem copy_effect {s s' : Site} {path : List String} {a : Unit}
    (h : effect hashOf s (.copy (.quarantine copy) .finalRoot path) = some (a, s'))
    (hs : Installed hashOf previous expected copy s)
    (hfree : (∀ t, s.find .finalRoot path = some t → t.Dangling) ∨ 1 ≤ s.failures) :
    Installed hashOf previous expected copy s' ∧ ∃ bytes,
      (s'.find (.quarantine copy) path).bind DirTree.contents = some bytes ∧
      s'.find .finalRoot path = some (.file bytes) := by
  obtain ⟨bytes, hbytes, h⟩ := Option.bind_eq_some_iff.mp h
  split at h
  · rename_i hkind
    obtain ⟨s₁, hw, h⟩ := Option.map_eq_some_iff.mp h
    cases h
    have hnone : s.find .finalRoot path = none ∨ 1 ≤ s.failures := by
      apply hfree.imp_left
      intro hdangling
      cases ht : s.find .finalRoot path with
      | none => rfl
      | some t =>
        rw [ht, Option.all_some, (hdangling t ht).kind] at hkind
        cases hkind
    refine ⟨hs.write hw hnone, bytes, ?_⟩
    obtain ⟨t, ht, rfl⟩ := Option.map_eq_some_iff.mp hw
    rw [Site.find_set_ne Place.noConfusion, Site.find_set]
    exact ⟨hbytes, treeAt_writeAt ht⟩
  · cases h

theorem createDir_effect {s s' : Site} {place : Place} {path : List String} {a : Unit}
    (h : effect hashOf s (.createDir place path) = some (a, s')) :
    s.find place path = none ∧ s.write place path (.folder []) = some s' := by
  obtain ⟨hnone, h⟩ := Option.ite_none_right_eq_some.mp h
  obtain ⟨s₁, hw, h⟩ := Option.map_eq_some_iff.mp h
  cases h
  exact ⟨Option.isNone_iff_eq_none.mp hnone, hw⟩

/-- A file is copied where none was found, and is there as it was. -/
theorem preserveFile_meets {path : List String} {s : Site}
    (hs : Installed hashOf previous expected copy s)
    (hfree : (∀ t, s.find .finalRoot path = some t → t.Dangling) ∨ 1 ≤ s.failures) :
    Meets Eq (Step hashOf) (fun s _ => Safe previous expected s)
      (Merged hashOf previous expected copy)
      (preserveFile display (.quarantine copy) .finalRoot path) s := by
  apply step_bind hs.safe
  · intro _ s₁ h₁
    obtain ⟨hs₁, bytes, hsource, htarget⟩ := copy_effect h₁ hs hfree
    apply look_bind (show Looks (.hashFile _ _) from trivial) hs₁.safe
    · intro first s₂ h₂ hl₂
      have hs₂ := hs₁.looked hl₂
      apply look_bind (show Looks (.hashFile _ _) from trivial) hs₂.safe
      · intro second s₃ h₃ hl₃
        obtain ⟨bytes₂, hbytes₂, h₂⟩ := Option.map_eq_some_iff.mp h₂
        obtain ⟨bytes₃, hbytes₃, h₃⟩ := Option.map_eq_some_iff.mp h₃
        rw [hsource] at hbytes₂
        rw [hl₂.find, htarget] at hbytes₃
        cases hbytes₂
        cases hbytes₃
        cases h₂
        cases h₃
        rw [if_pos rfl]
        exact ends ⟨hs₂.looked hl₃, Blamed.ok 1 _⟩
      · intro text s' hl hfailed
        exact ⟨hs₂.looked hl, Blamed.of_failed (by omega)⟩
    · intro text s' hl hfailed
      exact ⟨hs₁.looked hl, Blamed.of_failed (by omega)⟩
  · intro text error s₁ h₁
    obtain ⟨hs₁, hfailed⟩ := h₁.copy_error hs
    exact ⟨hs₁, Blamed.of_failed hfailed⟩

theorem copyMissingEntry_merges {path : List String} {below : RestoreProg Unit}
    (hbelow : Merges hashOf previous expected copy below) :
    Merges hashOf previous expected copy
      (copyMissingEntry display (.quarantine copy) .finalRoot path below) := by
  apply merges_look (show Looks (.nextEntry _ _) from trivial)
  intro _
  apply merges_look (show Looks (.symlinkMetadata _ _) from trivial)
  intro metadata s hs
  apply pathExists_bind hs.safe
  intro there s₁ hl₁ hseen
  have hs₁ := hs.looked hl₁
  cases there with
  | true =>
    rw [if_pos rfl]
    split
    · apply isDir_bind hs₁.safe
      intro folder s₂ hl₂
      split
      · exact hbelow s₂ (hs₁.looked hl₂)
      · exact merges_done s₂ (hs₁.looked hl₂)
    · exact merges_done s₁ hs₁
  | false =>
    have hfree : (∀ t, s₁.find .finalRoot path = some t → t.Dangling) ∨ 1 ≤ s₁.failures := by
      rw [hl₁.find]
      exact hseen.imp_right fun h => by omega
    rw [if_neg Bool.false_ne_true]
    cases metadata with
    | link =>
      apply fails
      refine ⟨hs₁, fun error h => ?_⟩
      cases h
      exact Nat.le_add_left 1 _
    | file => exact preserveFile_meets hs₁ hfree
    | special => exact merges_done s₁ hs₁
    | folder =>
      apply step_bind hs₁.safe
      · intro _ s₂ h₂
        obtain ⟨hnone, hw⟩ := createDir_effect h₂
        exact hbelow s₂ (hs₁.write hw (Or.inl hnone))
      · intro text error s₂ h₂
        cases h₂ with
        | failed => exact ⟨hs₁.looked (looked_fail s₁), Blamed.of_failed (Nat.le_add_left 1 _)⟩

mutual
theorem copyMissingTree_merges (path : List String) (t : DirTree Bytes) :
    Merges hashOf previous expected copy
      (copyMissingTree display (.quarantine copy) .finalRoot path t) := by
  cases t with
  | folder entries =>
    apply merges_look (show Looks (.readDir _ _) from trivial)
    intro _
    exact copyMissingEntries_merges path entries
  | _ =>
    apply merges_look (show Looks (.readDir _ _) from trivial)
    intro _
    exact merges_done
theorem copyMissingEntries_merges (path : List String) (entries : List (String × DirTree Bytes)) :
    Merges hashOf previous expected copy
      (copyMissingEntries display (.quarantine copy) .finalRoot path entries) := by
  cases entries with
  | nil => exact merges_done
  | cons entry rest =>
    apply Merges.bind
    · exact copyMissingEntry_merges (copyMissingTree_merges (path ++ [entry.1]) entry.2)
    · exact copyMissingEntries_merges path rest
end

theorem copyMissing_merges :
    Merges hashOf previous expected copy (copyMissing display (.quarantine copy) .finalRoot) := by
  apply merges_look (show Looks (.readDir _ _) from trivial)
  intro entries
  exact copyMissingEntries_merges [] entries

end Restore

end AuruPm
