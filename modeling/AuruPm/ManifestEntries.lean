import AuruPm.Holdings

/-!
# The manifest of a commit

What a push puts into the manifest of its commit and what it reports as unavailable: one entry
for each planned file that can be read, and over them one for each resource of the snapshot.
-/

namespace AuruPm

set_option autoImplicit false

open SortedAssoc Threads

variable {Client Bytes Hash : Type}

/-- The entry of a planned file that can be read. -/
def PlannedAsset.entry (F : Formats Bytes Hash) (asset : PlannedAsset Bytes) :
    Option (SampleEntry Hash) :=
  asset.contents.map fun bytes =>
    ⟨asset.bundlePath, F.contentHash bytes, F.byteLength bytes, asset.kind, asset.origin⟩

def SnapshotResource.entry (resource : SnapshotResource Bytes Hash) : SampleEntry Hash :=
  ⟨resource.path, resource.hash, resource.size, resource.kind, none⟩

def insertAll (entries new : List (SampleEntry Hash)) : List (SampleEntry Hash) :=
  new.foldl (fun entries entry => insertEntry entry entries) entries

/-! Insertions. -/

theorem mem_insertEntry_self (entry : SampleEntry Hash) (entries : List (SampleEntry Hash)) :
    entry ∈ insertEntry entry entries := by
  induction entries with
  | nil => exact List.mem_singleton_self entry
  | cons e entries ih =>
    unfold insertEntry
    split
    · exact List.mem_cons_self
    · split
      · exact List.mem_cons_self
      · exact List.mem_cons_of_mem e ih

theorem mem_insertEntry_of_ne {e entry : SampleEntry Hash} {entries : List (SampleEntry Hash)}
    (h : e ∈ entries) (hne : entry.path ≠ e.path) : e ∈ insertEntry entry entries := by
  induction entries with
  | nil => cases h
  | cons d entries ih =>
    unfold insertEntry
    split
    · exact List.mem_cons_of_mem _ h
    · split
      · rename_i hpath
        rcases List.mem_cons.mp h with rfl | h
        · exact absurd hpath hne
        · exact List.mem_cons_of_mem _ h
      · rcases List.mem_cons.mp h with rfl | h
        · exact List.mem_cons_self
        · exact List.mem_cons_of_mem _ (ih h)

theorem mem_insertAll_of_ne {e : SampleEntry Hash} {new entries : List (SampleEntry Hash)}
    (h : e ∈ entries) (hne : ∀ n ∈ new, n.path ≠ e.path) : e ∈ insertAll entries new := by
  induction new generalizing entries with
  | nil => exact h
  | cons n new ih =>
    rw [List.forall_mem_cons] at hne
    exact ih (mem_insertEntry_of_ne h hne.1) hne.2

theorem mem_insertAll_of_nodup {e : SampleEntry Hash} {new entries : List (SampleEntry Hash)}
    (h : e ∈ new) (hnodup : (new.map SampleEntry.path).Nodup) : e ∈ insertAll entries new := by
  induction new generalizing entries with
  | nil => cases h
  | cons n new ih =>
    rw [List.map_cons, List.nodup_cons] at hnodup
    rcases List.mem_cons.mp h with rfl | h
    · have hlater : ∀ m ∈ new, m.path ≠ e.path := fun m hm heq =>
        hnodup.1 (heq ▸ List.mem_map_of_mem hm)
      have hmem : e ∈ insertAll (insertEntry e entries) new :=
        mem_insertAll_of_ne (mem_insertEntry_self e entries) hlater
      exact hmem
    · exact ih h hnodup.2

/-! What a push produces. -/

section Produced
variable {F : Formats Bytes Hash} {R : Readers Bytes Hash}

/-- The names of the planned files that cannot be read. -/
def unreadable (assets : List (PlannedAsset Bytes)) : List String :=
  (assets.filter fun asset => asset.contents.isNone).map PlannedAsset.bundlePath

theorem bundleAssets_entries {assets : List (PlannedAsset Bytes)}
    {bundle bundle' : Push.Bundle Bytes Hash}
    (hr : (Push.bundleAssets F assets bundle).Returns bundle') :
    bundle'.manifest.entries =
        insertAll bundle.manifest.entries (assets.filterMap (PlannedAsset.entry F)) ∧
      bundle'.unavailable = bundle.unavailable ++ unreadable assets := by
  induction assets generalizing bundle with
  | nil =>
    obtain rfl : bundle = bundle' := hr
    exact ⟨rfl, (List.append_nil _).symm⟩
  | cons asset rest ih =>
    unfold Push.bundleAssets at hr
    split at hr
    · rename_i hnone
      obtain ⟨hentries, hunavailable⟩ := ih hr
      have hentry : asset.entry F = none := by rw [PlannedAsset.entry, hnone, Option.map_none]
      rw [List.filterMap_cons_none hentry]
      refine ⟨hentries, hunavailable.trans ?_⟩
      simp [unreadable, hnone]
    · rename_i bytes hsome
      simp only [Prog.returns_bind] at hr
      obtain ⟨_, -, hr⟩ := hr
      obtain ⟨hentries, hunavailable⟩ := ih hr
      have hentry : asset.entry F = some ⟨asset.bundlePath, F.contentHash bytes,
          F.byteLength bytes, asset.kind, asset.origin⟩ := by
        rw [PlannedAsset.entry, hsome, Option.map_some]
      rw [List.filterMap_cons_some hentry]
      refine ⟨hentries, hunavailable.trans ?_⟩
      simp [unreadable, hsome, Push.Bundle.add]

variable [DecidableEq Hash]

theorem bundleResources_entries {given : List (String × Bytes)}
    {resources : List (SnapshotResource Bytes Hash)} {bundle bundle' : Push.Bundle Bytes Hash}
    (hr : (Push.bundleResources F given resources bundle).Returns bundle') :
    bundle'.manifest.entries =
        insertAll bundle.manifest.entries (resources.map SnapshotResource.entry) ∧
      bundle'.unavailable = bundle.unavailable := by
  induction resources generalizing bundle with
  | nil =>
    obtain rfl : bundle = bundle' := hr
    exact ⟨rfl, rfl⟩
  | cons resource rest ih =>
    simp only [Push.bundleResources, Prog.returns_bind] at hr
    obtain ⟨bytes, -, hr⟩ := hr
    exact ih hr

/-- The manifest of a commit holds an entry for each planned file that can be read and for each
resource of the snapshot, the resources last. What cannot be read is reported. -/
theorem produces_manifest {request : PushRequest Client Bytes Hash} {d : Delivery Bytes Hash}
    (h : Push.Produces F R request d) : ∃ snapshot resources,
      F.decodeValue d.snapshotBytes = .ok snapshot ∧ R.resources snapshot = .ok resources ∧
      d.manifest.entries =
        insertAll (insertAll [] ((request.planAssets snapshot).assets.filterMap
          (PlannedAsset.entry F))) (resources.map SnapshotResource.entry) ∧
      ∀ name, name ∈ d.unavailable ↔ name ∈ (request.planAssets snapshot).unavailable ∨
        name ∈ unreadable (request.planAssets snapshot).assets := by
  simp only [Push.Produces, Push.upToMirrors, Prog.returns_bind] at h
  obtain ⟨remoteHead, -, sidecar, -, reconciled, -, h⟩ := h
  cases reconciled with
  | stopped outcome => cases h
  | ready prepared =>
    simp only [Prog.returns_bind, Prog.pure_eq, Prog.returns_done, Sum.inr.injEq,
      Push.commitToPrimary, Prog.returns_ofExcept] at h
    obtain ⟨d', ⟨snapshot, hsnapshot, -, -, bundle, hbundle, commit, -, bytes, -, rfl⟩, rfl⟩ := h
    simp only [Push.buildSampleManifest, Prog.returns_bind, Prog.pure_eq, Prog.returns_done,
      Prog.returns_ofExcept] at hbundle
    obtain ⟨assets, hassets, resources, hresources, whole, hwhole, rfl⟩ := hbundle
    obtain ⟨hentries, hunavailable⟩ := bundleAssets_entries hassets
    obtain ⟨hentries', hunavailable'⟩ := bundleResources_entries hwhole
    refine ⟨snapshot, resources, wrapped_ok hsnapshot, wrapped_ok hresources, ?_, fun name => ?_⟩
    · rw [hentries', hentries]
    · rw [mem_keySet, hunavailable', hunavailable, List.mem_append]

/-- A push that gets as far as its mirrors may end with its commit. -/
theorem produces_committed {request : PushRequest Client Bytes Hash} {d : Delivery Bytes Hash}
    (h : Push.Produces F R request d) : (Push.pushWithOptions F R request).Returns
      (.committed d.commit.id d.wasMerge (request.mirrors.map Push.mirrorResult) d.unavailable) := by
  rw [Push.pushWithOptions_eq, Prog.returns_bind]
  refine ⟨.inr d, h, ?_⟩
  simp only [Push.finish, Push.modifySidecar, Prog.returns_bind]
  exact ⟨(), ⟨{}, Prog.returns_run _, 0, Prog.returns_run _, Prog.returns_run _⟩, rfl⟩

end Produced

end AuruPm
