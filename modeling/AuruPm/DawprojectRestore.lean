import AuruPm.MergeInputs
import AuruPm.VerifiedRuns
import AuruPm.XmlFixpoint
import Mathlib.Data.List.Dedup

/-!
# Restoring a DAWproject

A client that restores a version fetches the entries of its archive one by one, by the media list,
and puts them beside the snapshot again. Of a published version that is the project as it was once
loaded from its archive, so that the restored bytes are those of the loaded project.
-/

namespace AuruPm

set_option autoImplicit false

open SortedAssoc Threads

/-- The bytes for the project file, and what is reported of the entries beside it. -/
structure RestoredArchive (Bytes : Type) where
  archive : Bytes
  filesWritten : Nat
  unavailable : Nat

section Program
variable {Bytes Hash : Type} [DecidableEq Hash] (F : Formats Bytes Hash) (C : Codecs Bytes Hash)
variable (blob : Value → Except String Bytes)

def archiveResourcePaths (snapshot : ProjectSnapshot Bytes) : Except String (List String) := do
  let p ← dawprojectPortable F C snapshot
  return p.resources.map ArchiveResource.id

def ProjectSnapshot.fromPortableWithResources (p : PortableSnapshot Hash)
    (detached : List (String × Bytes)) : Except String (ProjectSnapshot Bytes) := do
  p.validate C
  let bytes ← blob (p.toValue F)
  return ⟨p.format, bytes, detached⟩

def hydrateEmbeddedAssets (snapshot : ProjectSnapshot Bytes) (assets : List (String × Bytes)) :
    Except String (ProjectSnapshot Bytes) := do
  let p ← dawprojectPortable F C snapshot
  let detached := p.resources.filterMap fun resource =>
    (get? assets resource.id).map fun bytes => (resource.id, bytes)
  ProjectSnapshot.fromPortableWithResources F C blob p
    (detached.foldl (fun m e => insert e.1 e.2 m) [])

/-- The loop over the media list, with what was fetched so far. An entry that the provider does not
give is left out. -/
def fetchResources (paths : List String) : List (SampleEntry Hash) → List (String × Bytes) →
    Reading Bytes Hash (List (String × Bytes))
  | [], fetched => pure fetched
  | entry :: rest, fetched =>
    if entry.path ∉ paths then fetchResources paths rest fetched
    else do
      match ← Prog.attempt (ReadCall.getBlob entry.hash) with
      | .ok bytes => fetchResources paths rest (insert entry.path bytes fetched)
      | .error _ => fetchResources paths rest fetched

def restoreDawproject (commit : Commit Hash) (snapshot : ProjectSnapshot Bytes) :
    Reading Bytes Hash (RestoredArchive Bytes) := do
  let manifestBytes ← Prog.run (ReadCall.getBlob commit.tree.samples)
    (during "fetch DAWproject media list")
  let manifest ← Prog.ofExcept
    (wrapped "read DAWproject media list" (F.decodeManifest manifestBytes))
  let resourcePaths ← Prog.ofExcept
    (wrapped "read DAWproject resources" (archiveResourcePaths F C snapshot))
  let requiresHydration ← Prog.ofExcept
    (wrapped "read DAWproject resource storage" (requiresResourceHydration F C snapshot))
  let fetched ← fetchResources resourcePaths manifest.entries []
  let hydrated ← Prog.ofExcept
    (wrapped "hydrate DAWproject media" (hydrateEmbeddedAssets F C blob snapshot fetched))
  let archive ← Prog.ofExcept (wrapped "restore project" (hydrated.restoreBytes F C))
  -- the paths are a set here
  pure ⟨archive, fetched.length,
    if requiresHydration then resourcePaths.dedup.length - fetched.length else 0⟩

/-- `restore_into_staging`; how formats other than DAWproject are restored is not looked at. -/
def restoreIntoStaging
    (others : Commit Hash → ProjectSnapshot Bytes → Reading Bytes Hash (RestoredArchive Bytes))
    (commit : Commit Hash) (snapshot : ProjectSnapshot Bytes) :
    Reading Bytes Hash (RestoredArchive Bytes) :=
  if snapshot.format = .dawproject then restoreDawproject F C blob commit snapshot
  else others commit snapshot

/-- `restore_from_provider`, up to what is written into the staging folder. -/
def restoreFromProvider
    (others : Commit Hash → ProjectSnapshot Bytes → Reading Bytes Hash (RestoredArchive Bytes))
    (commitId : Hash) : Reading Bytes Hash (RestoredArchive Bytes) := do
  let commit ← Prog.run (ReadCall.getCommit commitId) (during "fetch version")
  let snapshotBytes ← Prog.run (ReadCall.getBlob commit.tree.snapshot) (during "fetch project")
  let snapshot ← Prog.ofExcept
    (wrapped "read stored project" (ProjectSnapshot.fromCanonicalBytes F C snapshotBytes))
  restoreIntoStaging F C blob others commit snapshot

end Program

/-! Fetching. -/

section Fetch
variable {Bytes Hash : Type} {answer : Answers Bytes Hash}
variable {detached fetched : List (String × Bytes)} {paths : List String}
variable {entries : List (SampleEntry Hash)}

/-- Every entry that is asked for is given, and is the one of that path. -/
def GivesEntries (answer : Answers Bytes Hash) (detached : List (String × Bytes))
    (paths : List String) (entries : List (SampleEntry Hash)) : Prop :=
  ∀ entry ∈ entries, entry.path ∈ paths →
    ∃ bytes, answer (.getBlob entry.hash) = .ok bytes ∧ get? detached entry.path = some bytes

theorem fetchResources_ok (h : GivesEntries answer detached paths entries) (hs : Sorted fetched) :
    ∃ result, (fetchResources paths entries fetched).eval answer = .ok result ∧ Sorted result ∧
      ∀ k, get? result k =
        if k ∈ paths ∧ k ∈ entries.map SampleEntry.path then get? detached k else get? fetched k := by
  induction entries generalizing fetched with
  | nil => exact ⟨fetched, rfl, hs, fun k => by simp⟩
  | cons entry rest ih =>
    obtain ⟨hentry, hrest⟩ := List.forall_mem_cons.mp h
    unfold fetchResources
    split
    · rename_i hpath
      obtain ⟨result, heval, hsorted, hget⟩ := ih hrest hs
      refine ⟨result, heval, hsorted, fun k => ?_⟩
      simp only [hget, List.map_cons, List.mem_cons]
      have hne : k ∈ paths → k ≠ entry.path := fun hk heq => hpath (heq ▸ hk)
      by_cases hk : k ∈ paths <;> simp [hk, hne]
    · rename_i hpath
      obtain ⟨bytes, hanswer, hbytes⟩ := hentry (not_not.mp hpath)
      obtain ⟨result, heval, hsorted, hget⟩ := ih hrest (sorted_insert hs entry.path bytes)
      refine ⟨result, ?_, hsorted, fun k => ?_⟩
      · rw [Prog.eval_attempt_bind, hanswer]
        exact heval
      · simp only [hget, List.map_cons, List.mem_cons, get?_insert]
        by_cases hk : k = entry.path
        · subst hk
          simp [not_not.mp hpath, hbytes]
        · simp [hk]

/-- It asks for entries of the list only. -/
theorem asked_fetchResources (h : GivesEntries answer detached paths entries) :
    ∀ call ∈ (fetchResources paths entries fetched).asked answer,
      call ∈ (entries.map SampleEntry.hash).map ReadCall.getBlob := by
  induction entries generalizing fetched with
  | nil => exact fun _ hcall => absurd hcall List.not_mem_nil
  | cons entry rest ih =>
    obtain ⟨hentry, hrest⟩ := List.forall_mem_cons.mp h
    intro call hcall
    unfold fetchResources at hcall
    split at hcall
    · exact List.mem_cons_of_mem _ (ih hrest call hcall)
    · rename_i hpath
      obtain ⟨bytes, hanswer, -⟩ := hentry (not_not.mp hpath)
      rw [Prog.asked_attempt_bind, hanswer] at hcall
      rcases List.mem_cons.mp hcall with rfl | hcall
      · exact List.mem_cons_self
      · exact List.mem_cons_of_mem _ (ih hrest call hcall)

end Fetch

/-! Hydrating. -/

section Hydrate
variable {Bytes Hash : Type} {F : Formats Bytes Hash} {C : Codecs Bytes Hash}
variable {blob : Value → Except String Bytes} {bytes : Bytes} {v : Value}
variable {project : XmlDocument} {metadata : Option XmlDocument} {detached : List (String × Bytes)}

theorem IsDawproject.dawprojectPortable {p : PortableSnapshot Hash} (h : IsDawproject F C bytes v p)
    (detached : List (String × Bytes)) :
    dawprojectPortable F C ⟨.dawproject, bytes, detached⟩ = .ok p := by
  obtain ⟨_, p', -, -, hp', hvalid⟩ := snapshotFormat_dawproject h.format
  obtain rfl : p = p' := Option.some.inj (h.portable.symm.trans hp')
  have hread : ProjectSnapshot.portable F C ⟨.dawproject, bytes, detached⟩ = .ok (some p) :=
    bind_ok_iff.mpr ⟨v, parseJson_ok_iff.mpr h.decoded, bind_ok_iff.mpr
      ⟨p, serdeResult_ok_iff.mpr h.portable, bind_ok_iff.mpr ⟨(), hvalid, rfl⟩⟩⟩
  exact bind_ok_iff.mpr ⟨some p, hread, rfl⟩

theorem DetachedEntries.foldl_insert (h : DetachedEntries F detached) :
    detached.foldl (fun m e => insert e.1 e.2 m) [] = detached := by
  have hperm := perm_foldl_insert detached [] (by rw [List.append_nil]; exact h.nodup)
  rw [List.append_nil] at hperm
  exact ext_mem (sorted_foldl_insert detached List.Pairwise.nil) h.sorted fun e => hperm.mem_iff

theorem DetachedEntries.filterMap_resources (h : DetachedEntries F detached) :
    (detached.map (detachedResource F)).filterMap (fun resource =>
      (get? detached resource.id).map fun bytes => (resource.id, bytes)) = detached := by
  rw [List.filterMap_map]
  refine (List.filterMap_congr fun entry hentry => ?_).trans List.filterMap_some
  simp only [Function.comp_apply, detachedResource, get?_of_mem h.sorted hentry, Option.map_some]

/-- A snapshot of the archive becomes the project as it was loaded. -/
theorem ParsedArchive.hydrateEmbeddedAssets (h : ParsedArchive F C project metadata detached)
    (hbytes : blob ((archive F project metadata detached).toValue F) = .ok bytes)
    {snapshot : ProjectSnapshot Bytes}
    (hp : AuruPm.dawprojectPortable F C snapshot = .ok (archive F project metadata detached)) :
    AuruPm.hydrateEmbeddedAssets F C blob snapshot detached = .ok ⟨.dawproject, bytes, detached⟩ := by
  refine bind_ok_iff.mpr ⟨_, hp, bind_ok_iff.mpr ⟨(), h.validate, bind_ok_iff.mpr ⟨bytes, hbytes, ?_⟩⟩⟩
  have hcollected := h.detached.filterMap_resources
  simp only [archive, hcollected, h.detached.foldl_insert]
  rfl

theorem archiveResourcePaths_archive {snapshot : ProjectSnapshot Bytes}
    (hp : dawprojectPortable F C snapshot = .ok (archive F project metadata detached)) :
    archiveResourcePaths F C snapshot = .ok (detached.map Prod.fst) := by
  refine bind_ok_iff.mpr ⟨_, hp, congrArg Except.ok ?_⟩
  simp [archive, detachedResource]

theorem requiresResourceHydration_archive {snapshot : ProjectSnapshot Bytes}
    (hp : dawprojectPortable F C snapshot = .ok (archive F project metadata detached)) :
    requiresResourceHydration F C snapshot = .ok !detached.isEmpty := by
  refine bind_ok_iff.mpr ⟨_, hp, congrArg Except.ok ?_⟩
  cases detached <;> simp [archive, detachedResource]

end Hydrate

/-! The stored text. -/

section Text
variable {Bytes Hash : Type} {F : Formats Bytes Hash} {C : Codecs Bytes Hash}
variable {blob : Value → Except String Bytes} {bytes : Bytes} {v : Value} {limit : Nat}
variable {project : XmlDocument} {metadata : Option XmlDocument} {detached : List (String × Bytes)}

/-- The hashes of the entries are read back from their texts. -/
def HashesRead (F : Formats Bytes Hash) (C : Codecs Bytes Hash) (detached : List (String × Bytes)) :
    Prop :=
  ∀ entry ∈ detached,
    C.parseHash (F.hashText (F.contentHash entry.2)) = some (F.contentHash entry.2)

theorem get_portable_format (p : PortableSnapshot Hash) :
    (p.toValue F).get "format" = some (.string p.format.name) := by
  obtain ⟨version, format, project, metadata, resources⟩ := p
  cases metadata <;> cases resources <;>
    simp [PortableSnapshot.toValue, structValue, Value.get, skipNone, skipEmpty, get?_insert]

theorem get_portable_marker (p : PortableSnapshot Hash) :
    (p.toValue F).get "auru_pm_snapshot" = some (.number (.ofInt p.auruPmSnapshot)) := by
  obtain ⟨version, format, project, metadata, resources⟩ := p
  cases metadata <;> cases resources <;>
    simp [PortableSnapshot.toValue, structValue, Value.get, skipNone, skipEmpty, get?_insert]

theorem get_portable_metadata (p : PortableSnapshot Hash) :
    (p.toValue F).get "metadata" = p.metadata.map XmlDocument.toValue := by
  obtain ⟨version, format, project, metadata, resources⟩ := p
  cases metadata <;> cases resources <;>
    simp [PortableSnapshot.toValue, structValue, Value.get, skipNone, skipEmpty, get?_insert]

theorem ParsedArchive.readPortable (h : ParsedArchive F C project metadata detached)
    (hhash : HashesRead F C detached) :
    AuruPm.readPortable C ((archive F project metadata detached).toValue F) =
      some (archive F project metadata detached) := by
  refine h.storable.read fun resource hresource hash hmem => ?_
  obtain ⟨entry, hentry, rfl⟩ := List.mem_map.mp hresource
  obtain rfl := Option.some.inj hmem
  exact hhash entry hentry

theorem ParsedArchive.snapshotFormat (h : ParsedArchive F C project metadata detached)
    (hhash : HashesRead F C detached) :
    AuruPm.snapshotFormat C ((archive F project metadata detached).toValue F) = .ok .dawproject := by
  have hmarker : portableSnapshotFormat ((archive F project metadata detached).toValue F) =
      .ok (some .dawproject) := by
    rw [portableSnapshotFormat, get_portable_marker, get_portable_format]
    rfl
  rw [AuruPm.snapshotFormat, hmarker, h.readPortable hhash]
  refine bind_ok_iff.mpr ⟨some .dawproject, rfl, ?_⟩
  simp only [Option.getD_some, reduceCtorEq, if_false, ne_eq, not_false_eq_true, if_true]
  exact bind_ok_iff.mpr ⟨_, rfl, bind_ok_iff.mpr ⟨(), h.validate, rfl⟩⟩

/-- Text of the archive that can be read holds its wrapper. -/
theorem ParsedArchive.isDawproject (hB : F.ReadsBlobs blob limit)
    (h : ParsedArchive F C project metadata detached) (hhash : HashesRead F C detached)
    (hbytes : blob ((archive F project metadata detached).toValue F) = .ok bytes)
    (hv : F.decodeValue bytes = .ok v) :
    IsDawproject F C bytes v (archive F project metadata detached) ∧
      v.unfloat = ((archive F project metadata detached).toValue F).unfloat := by
  have hdepth : ((archive F project metadata detached).toValue F).depth ≤ limit := by
    by_contra hdeep
    exact hB.parse_refused h.storable hbytes hdeep v (parseJson_ok_iff.mpr hv)
  obtain ⟨w, hw, heq⟩ := hB.printed _ _ hbytes (wf_portableValue h.storable) hdepth
  obtain rfl : w = v := Except.ok.inj (hw.symm.trans hv)
  refine ⟨⟨hv, ?_, ?_⟩, heq⟩
  · rw [← snapshotFormat_unfloat, heq, snapshotFormat_unfloat, h.snapshotFormat hhash]
  · rw [← readPortable_unfloat, heq, readPortable_unfloat, h.readPortable hhash]

/-- The resources that are found in it are the entries of the archive. -/
theorem ParsedArchive.described (h : ParsedArchive F C project metadata detached)
    (hhash : HashesRead F C detached)
    (heq : v.unfloat = ((archive F project metadata detached).toValue F).unfloat)
    {resources : List (SnapshotResource Bytes Hash)}
    (hresources : snapshotResources F C v = .ok resources) :
    ∀ entry ∈ detached, ∃ d ∈ resources, d.path = entry.1 ∧ d.hash = F.contentHash entry.2 ∧
      d.size = F.byteLength entry.2 := by
  rw [← snapshotResources_unfloat, heq, snapshotResources_unfloat] at hresources
  have hread := h.readPortable hhash
  obtain ⟨fields, hfields⟩ : ∃ fields, (archive F project metadata detached).toValue F =
    .object fields := ⟨_, rfl⟩
  have hmetadata := get_portable_metadata (F := F) (archive F project metadata detached)
  rw [hfields] at hresources hread hmetadata
  have hshown : ¬ (snapshotParts (.object fields)).isNone = true := by
    rw [snapshotParts_isNone_iff hread rfl]
    rintro (hnull : (Value.object fields).get "metadata" = some .null)
    rw [hmetadata] at hnull
    cases metadata <;> cases hnull
  rw [snapshotResources, if_neg hshown] at hresources
  obtain ⟨-, -, -, -, hlist⟩ := readPortable_object_iff.mp hread
  intro entry hentry
  have hmem : detachedResource F entry ∈ (archive F project metadata detached).resources :=
    List.mem_map_of_mem hentry
  rw [Value.get] at hresources
  cases hfield : get? fields "resources" with
  | none =>
    rw [hfield] at hlist
    rw [← Option.some.inj hlist] at hmem
    cases hmem
  | some elems =>
    rw [hfield] at hlist hresources
    cases elems with
    | array elems =>
      obtain ⟨-, -, hdescribed⟩ := forall₂_detachedAt (mapM_some_iff.mp hlist)
        (mapM_ok_iff.mp hresources) fun r hr => by
          obtain ⟨e, -, rfl⟩ := List.mem_map.mp hr
          exact ⟨rfl, rfl, rfl⟩
      obtain ⟨d, hd, hid, hhash, hsize⟩ := hdescribed _ hmem
      exact ⟨d, hd, hid.symm, (Option.some.inj hhash).symm, (Option.some.inj hsize).symm⟩
    | _ => cases hlist

end Text

/-! From a whole copy. -/

section Copy
variable {Bytes Hash : Type} {F : Formats Bytes Hash} {C : Codecs Bytes Hash}
variable {blob : Value → Except String Bytes} {bytes : Bytes} {limit : Nat}
variable {project : XmlDocument} {metadata : Option XmlDocument} {detached : List (String × Bytes)}
variable {problems : Value → List IntegrityProblem} {info : Value → Option Bytes}
variable {answer : Answers Bytes Hash} {commit : Commit Hash} {manifest : SampleManifest Hash}

/-- What a client gets that asks for the snapshot of a whole copy. -/
theorem CopyOf.canonicalBytes (hJ : F.ReadsBack limit) (hB : F.ReadsBlobs blob limit)
    (hcopy : CopyOf F (kernelReaders F C problems info) answer commit bytes manifest)
    (h : ParsedArchive F C project metadata detached) (hhash : HashesRead F C detached)
    (hbytes : blob ((archive F project metadata detached).toValue F) = .ok bytes) :
    ∃ v text w, F.decodeValue bytes = .ok v ∧
      v.unfloat = ((archive F project metadata detached).toValue F).unfloat ∧
      (kernelReaders F C problems info).canonicalBytes bytes = .ok text ∧
      ProjectSnapshot.fromCanonicalBytes F C bytes = .ok ⟨.dawproject, text, []⟩ ∧
      IsDawproject F C text w (archive F project metadata detached) := by
  obtain ⟨text, -, htext, -, -⟩ := hcopy.canonical
  obtain ⟨snapshot, hsnapshot, rfl⟩ := map_ok_iff.mp htext
  obtain ⟨v, hv, -⟩ := bind_ok_iff.mp hsnapshot
  obtain ⟨hdaw, heq⟩ := h.isDawproject hB hhash hbytes (parseJson_ok_iff.mp hv)
  obtain ⟨w, hw⟩ := hdaw.reencoded hJ
  obtain rfl := Except.ok.inj (hsnapshot.symm.trans hdaw.fromCanonicalBytes)
  exact ⟨v, F.encodeValue v, w, hdaw.decoded, heq, htext, hsnapshot, hw⟩

/-- What the media list leads to is what was beside the snapshot. -/
theorem fetchResources_detached (h : DetachedEntries F detached)
    {entries : List (SampleEntry Hash)}
    (hgives : GivesEntries answer detached (detached.map Prod.fst) entries)
    (hall : ∀ path ∈ detached.map Prod.fst, path ∈ entries.map SampleEntry.path) :
    (fetchResources (detached.map Prod.fst) entries []).eval answer = .ok detached := by
  obtain ⟨fetched, heval, hs, hget⟩ := fetchResources_ok hgives List.Pairwise.nil
  obtain rfl : fetched = detached := by
    refine ext hs h.sorted fun k => ?_
    rw [hget]
    by_cases hk : k ∈ detached.map Prod.fst
    · rw [if_pos ⟨hk, hall k hk⟩]
    · rw [if_neg fun h => hk h.1, get?_nil, get?_eq_none_iff.mpr hk]
  exact heval

/-- A whole copy gives every entry of the archive under its path. -/
theorem CopyOf.givesEntries (hF : F.Lawful) (hJ : F.ReadsBack limit) (hB : F.ReadsBlobs blob limit)
    (hcopy : CopyOf F (kernelReaders F C problems info) answer commit bytes manifest)
    (hsorted : SortedEntries manifest.entries)
    (h : ParsedArchive F C project metadata detached) (hhash : HashesRead F C detached)
    (hbytes : blob ((archive F project metadata detached).toValue F) = .ok bytes) :
    GivesEntries answer detached (detached.map Prod.fst) manifest.entries ∧
      ∀ path ∈ detached.map Prod.fst, path ∈ manifest.entries.map SampleEntry.path := by
  obtain ⟨v, text, w, hv, heq, htext, -, hw⟩ := hcopy.canonicalBytes hJ hB h hhash hbytes
  obtain ⟨text', hydrates, htext', hneeds, hlisted⟩ := hcopy.canonical
  obtain rfl : text' = text := Except.ok.inj (htext'.symm.trans htext)
  have hhydrates : hydrates = !detached.isEmpty := by
    have hrequires := requiresResourceHydration_archive (hw.dawprojectPortable [])
    have hneeded : (kernelReaders F C problems info).needsHydration text' = .ok !detached.isEmpty :=
      bind_ok_iff.mpr ⟨w, parseJson_ok_iff.mpr hw.decoded, bind_ok_iff.mpr
        ⟨.dawproject, hw.format, hrequires⟩⟩
    exact Except.ok.inj (hneeds.symm.trans hneeded)
  have hfound : ∀ e ∈ detached, ∃ entry ∈ manifest.entries, entry.path = e.1 ∧
      entry.hash = F.contentHash e.2 := by
    intro e he
    have htrue : hydrates = true := by
      rw [hhydrates]
      cases detached with
      | nil => cases he
      | cons => rfl
    obtain ⟨v', resources, hv', hresources, hentries⟩ := hlisted htrue
    obtain rfl : v' = v := Except.ok.inj (hv'.symm.trans hv)
    obtain ⟨d, hd, hpath, hsame, -⟩ := h.described hhash heq hresources e he
    obtain ⟨entry, hfind, hentry, -⟩ := hentries d hd
    refine ⟨entry, List.mem_of_find?_eq_some hfind, ?_, hentry.trans hsame⟩
    rw [← hpath]
    simpa using List.find?_some hfind
  constructor
  · intro entry hentry hpath
    obtain ⟨e, he, hname⟩ := List.mem_map.mp hpath
    obtain ⟨other, hother, hsame, hhash'⟩ := hfound e he
    -- the list has one entry for a path
    obtain rfl : other = entry := by
      have hfirst := hsorted.find?_path hentry
      have hsecond := hsorted.find?_path hother
      rw [hsame, hname] at hsecond
      exact Option.some.inj (hsecond.symm.trans hfirst)
    obtain ⟨got, hserves, -⟩ := hcopy.entries other hother
    obtain rfl : got = e.2 := hF.hash_injective (hserves.2.trans hhash')
    exact ⟨e.2, hserves.1, hname ▸ get?_of_mem h.detached.sorted he⟩
  · intro path hpath
    obtain ⟨e, he, rfl⟩ := List.mem_map.mp hpath
    obtain ⟨entry, hentry, hsame, -⟩ := hfound e he
    exact hsame ▸ List.mem_map_of_mem hentry

variable [DecidableEq Hash]

/-- The project is restored as it would be from its own snapshot, and only objects that the commit
names are asked for. -/
theorem CopyOf.restores
    (others : Commit Hash → ProjectSnapshot Bytes → Reading Bytes Hash (RestoredArchive Bytes))
    (hF : F.Lawful) (hJ : F.ReadsBack limit) (hB : F.ReadsBlobs blob limit)
    (hcopy : CopyOf F (kernelReaders F C problems info) answer commit bytes manifest)
    (hsorted : SortedEntries manifest.entries)
    (h : ParsedArchive F C project metadata detached) (hhash : HashesRead F C detached)
    (hbytes : blob ((archive F project metadata detached).toValue F) = .ok bytes) :
    (restoreFromProvider F C blob others commit.id).eval answer =
        (wrapped "restore project" (ProjectSnapshot.restoreBytes F C ⟨.dawproject, bytes, detached⟩)).map
          (fun archive => ⟨archive, detached.length, 0⟩) ∧
      ∀ call ∈ (restoreFromProvider F C blob others commit.id).asked answer,
        call ∈ ReadCall.getCommit commit.id ::
          (FilesystemProvider.commitBlobs commit manifest).map ReadCall.getBlob := by
  obtain ⟨v, text, w, -, -, -, hsnapshot, hw⟩ := hcopy.canonicalBytes hJ hB h hhash hbytes
  obtain ⟨manifestBytes, hserves, hmanifest⟩ := hcopy.samples
  obtain ⟨hgives, hall⟩ := hcopy.givesEntries hF hJ hB hsorted h hhash hbytes
  have hportable := hw.dawprojectPortable []
  have hpaths := archiveResourcePaths_archive hportable
  have hrequires := requiresResourceHydration_archive hportable
  have hfetched := fetchResources_detached h.detached hgives hall
  have hhydrated := h.hydrateEmbeddedAssets hbytes hportable
  have hread : ∀ {α : Type} {what : String} {x : Except String α} {a : α}, x = .ok a →
      (Prog.ofExcept (wrapped what x) : Reading Bytes Hash α).eval answer = .ok a :=
    fun hx => (Prog.eval_ofExcept _).trans (wrapped_ok_iff.mpr hx)
  have hmissing : (if (!detached.isEmpty) = true then
      (detached.map Prod.fst).dedup.length - detached.length else 0) = 0 := by
    rw [List.dedup_eq_self.mpr h.detached.nodup, List.length_map, Nat.sub_self, ite_self]
  constructor
  · rw [restoreFromProvider, Prog.eval_bind (Prog.eval_run_ok_iff.mpr hcopy.found),
      Prog.eval_bind (Prog.eval_run_ok_iff.mpr hcopy.snapshot.1), Prog.eval_bind (hread hsnapshot),
      restoreIntoStaging, if_pos rfl, restoreDawproject,
      Prog.eval_bind (Prog.eval_run_ok_iff.mpr hserves.1), Prog.eval_bind (hread hmanifest),
      Prog.eval_bind (hread hpaths), Prog.eval_bind (hread hrequires), Prog.eval_bind hfetched,
      Prog.eval_bind (hread hhydrated), hmissing]
    exact Prog.eval_ofExcept_map
  · intro call hcall
    rw [restoreFromProvider, Prog.asked_bind (Prog.eval_run_ok_iff.mpr hcopy.found),
      Prog.asked_bind (Prog.eval_run_ok_iff.mpr hcopy.snapshot.1), Prog.asked_bind (hread hsnapshot),
      restoreIntoStaging, if_pos rfl, restoreDawproject,
      Prog.asked_bind (Prog.eval_run_ok_iff.mpr hserves.1), Prog.asked_bind (hread hmanifest),
      Prog.asked_bind (hread hpaths), Prog.asked_bind (hread hrequires), Prog.asked_bind hfetched,
      Prog.asked_bind (hread hhydrated)] at hcall
    simp only [Prog.asked_run, Prog.asked_ofExcept, Prog.asked_ofExcept_map, List.mem_append,
      List.mem_cons, List.not_mem_nil, or_false, false_or, FilesystemProvider.commitBlobs,
      List.map_append, List.map_cons] at hcall ⊢
    rcases hcall with rfl | rfl | rfl | hcall
    · exact .inl rfl
    · exact .inr (.inl (.inl (.inl rfl)))
    · exact .inr (.inl (.inl (.inr (.inl rfl))))
    · exact .inr (.inr (asked_fetchResources hgives call hcall))

end Copy

/-! From a folder in use. -/

section Published
variable {Client Bytes Hash : Type} [DecidableEq Client] [DecidableEq Hash]
variable {F : Formats Bytes Hash} {C : Codecs Bytes Hash} {S : SourceCodecs Bytes}
variable {blob : Value → Except String Bytes} {limit : Nat} {limits : Limits Client Bytes Hash}
variable {problems : Value → List IntegrityProblem} {info : Value → Option Bytes}
variable {source : Bytes} {loaded : ProjectSnapshot Bytes}

omit [DecidableEq Hash] in
/-- What a project file was loaded as. -/
theorem parsedArchive_of_load (hR : ReadsXml F C S)
    (h : ProjectSnapshot.fromSourceBytes F C S blob .dawproject source = .ok loaded) :
    ∃ project metadata bytes detached, loaded = ⟨.dawproject, bytes, detached⟩ ∧
      ParsedArchive F C project metadata detached ∧
        blob ((archive F project metadata detached).toValue F) = .ok bytes := by
  obtain ⟨entries, s, project, bytes, -, -, hs, hproject, hbytes, rfl⟩ :=
    fromSourceBytes_dawproject_iff.mp h
  obtain ⟨hgathered, -⟩ := gathered_readEntries 0 hR gathered_initial hs
  rw [sortResources_detached hgathered.detached hgathered.resources] at hbytes
  exact ⟨project, s.metadata, bytes, s.detached, rfl, ⟨(hgathered.project project hproject).1,
    fun document hdocument => (hgathered.metadata document hdocument).1, hgathered.detached⟩, hbytes⟩

end Published

/-! An archive with a take. -/

namespace Term

def ofAttributes (attributes : List (String × String)) : Term :=
  ofList (fun a => pair (text a.1) (text a.2)) attributes

def asAttribute : Term → Option (String × String)
  | pair (text key) (text t) => some (key, t)
  | _ => none

def asAttributes : Term → Option (List (String × String)) := toList asAttribute

theorem asAttributes_ofAttributes (attributes : List (String × String)) :
    asAttributes (ofAttributes attributes) = some attributes :=
  toList_ofList (g := asAttribute) (fun _ => rfl) attributes

def ofEvent : XmlEvent → Term
  | .decl => text "decl"
  | .empty tag attributes => pair (text "empty") (pair (text tag) (ofAttributes attributes))
  | .start tag attributes => pair (text "start") (pair (text tag) (ofAttributes attributes))
  | .text t => pair (text "text") (text t)
  | .cdata t => pair (text "cdata") (text t)
  | .comment t => pair (text "comment") (text t)
  | .close tag => pair (text "close") (text tag)

def asEvent : Term → Option XmlEvent
  | text "decl" => some .decl
  | pair (text "empty") (pair (text tag) attributes) => (asAttributes attributes).map (.empty tag)
  | pair (text "start") (pair (text tag) attributes) => (asAttributes attributes).map (.start tag)
  | pair (text "text") (text t) => some (.text t)
  | pair (text "cdata") (text t) => some (.cdata t)
  | pair (text "comment") (text t) => some (.comment t)
  | pair (text "close") (text tag) => some (.close tag)
  | _ => none

theorem asEvent_ofEvent (event : XmlEvent) : asEvent (ofEvent event) = some event := by
  cases event <;> simp [asEvent, ofEvent, asAttributes_ofAttributes]

def asZipEntry : Term → Option (ZipEntry Term)
  | pair (text name) bytes => some ⟨name, 0, fun _ => .ok bytes⟩
  | _ => none

end Term

/-- Symbolic codecs whose XML is the list of its events. -/
def takeCodecs : Codecs Term Term :=
  { symbolicCodecs with writeXml := fun events => .ok (Term.ofList Term.ofEvent events) }

def takeSources : SourceCodecs Term where
  readXml bytes := withSections (((Term.toList Term.asEvent bytes).map delivered).getD [])
  isGzip _ := true
  gunzip bytes _ := .ok bytes
  zipEntries bytes := Term.orError ((Term.toList Term.asZipEntry bytes).map (List.map .ok))
  flToTree _ := .error "unused"

def takeBlob (v : Value) : Except String Term := .ok (.value v)

theorem symbolicTexts_readsBack : symbolicTexts.ReadsBack 127 :=
  ⟨symbolicJson_readsBack.decoded, symbolicJson_readsBack.encoded⟩

theorem symbolicTexts_readsBlobs : symbolicTexts.ReadsBlobs takeBlob 127 where
  printed v bytes h hwf hdepth := by
    obtain rfl := Except.ok.inj h
    exact symbolicJson_readsBack.encoded v hwf hdepth
  refused v bytes h _ hdeep := by
    obtain rfl := Except.ok.inj h
    refine ⟨_, if_neg ?_⟩
    simp [Nat.not_le.mpr hdeep]

theorem takeSources_xml : ReadsXml symbolicTexts takeCodecs takeSources where
  written document hvalid hkept := by
    obtain ⟨xml, hxml, hread⟩ := fileReaders_xml.written document hvalid hkept
    obtain rfl := Except.ok.inj hxml
    refine ⟨_, rfl, ?_⟩
    simp only [takeSources, Term.toList_ofList Term.asEvent_ofEvent, Option.map_some, Option.getD_some]
    exact hread
  sections bytes := sections_withSections _
  compressed bytes := ⟨bytes, rfl, rfl, fun _ => ⟨fun _ => rfl, fun h => absurd h (Nat.not_lt_zero _)⟩⟩

/-- The archive of a project with one take. -/
def takeArchive : Term :=
  Term.ofList (fun e : String × Term => .pair (.text e.1) e.2)
    [("project.xml", Term.ofList Term.ofEvent [.decl, .empty "Project" []]),
      ("audio/take.wav", .text "take")]

def takeReaders : Readers Term Term :=
  kernelReaders symbolicTexts takeCodecs (fun _ => []) (fun _ => none)

def takeLoaded : ProjectSnapshot Term :=
  ⟨.dawproject, .value ((archive symbolicTexts ⟨.mk "Project" none [] []⟩ none
    [("audio/take.wav", Term.text "take")] : PortableSnapshot Term).toValue symbolicTexts),
    [("audio/take.wav", Term.text "take")]⟩

theorem ok_of_toOption {E α : Type} {x : Except E α} {a : α} (h : x.toOption = some a) :
    x = .ok a := by
  cases x with
  | error e => cases h
  | ok b => exact congrArg _ (Option.some.inj h)

theorem takeLoaded_load :
    ProjectSnapshot.fromSourceBytes symbolicTexts takeCodecs takeSources takeBlob .dawproject
      takeArchive = .ok takeLoaded := by
  have h : ((ProjectSnapshot.fromSourceBytes symbolicTexts takeCodecs takeSources takeBlob .dawproject
      takeArchive).toOption.map fun s => (s.format, s.canonicalBytes, s.detachedResources)) =
        some (takeLoaded.format, takeLoaded.canonicalBytes, takeLoaded.detachedResources) := by
    decide +kernel
  obtain ⟨⟨format, bytes, detached⟩, hsnapshot, heq⟩ := Option.map_eq_some_iff.mp h
  simp only [Prod.mk.injEq] at heq
  obtain ⟨rfl, rfl, rfl⟩ := heq
  exact ok_of_toOption hsnapshot

def takePush : PushRequest Nat Term Term :=
  { pushOf 0 .null with
    snapshot := takeLoaded.canonicalBytes
    snapshotResources := takeLoaded.detachedResources }

/-- The folder after the first push. -/
def takeShared : Shared Nat Term Term :=
  Shared.start.pushAlone symbolicTexts takeReaders 1 0 takePush

theorem takeShared_run : Run symbolicTexts takeReaders anything takeShared := by
  have hmay : ∀ (s : Shared Nat Term Term) c, anything.Allow s c := fun _ c => by
    cases c <;> trivial
  exact (RunOf.start.push hmay 1 _).run

theorem takeShared_unpruned : takeShared.provider.floor = .missing := by decide +kernel

end AuruPm
