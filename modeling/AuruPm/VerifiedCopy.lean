import AuruPm.Holdings
import AuruPm.Lib.Oracle

/-!
# Verified copies

`verify_commit_copy` reads a version back, with everything that it names, before a backup is
reported as verified. It is a program over the reads of a provider, which need not be honest: what
a successful verification has read is determined by the id of the version.
-/

namespace AuruPm

set_option autoImplicit false

open SortedAssoc Threads

/-- The reads of a provider that others can come between. -/
inductive ReadCall (Bytes Hash : Type) where
  | getCommit (id : Hash)
  | getBlob (hash : Hash)

@[reducible]
def ReadCall.Answer {Bytes Hash : Type} : ReadCall Bytes Hash → Type
  | .getCommit _ => Commit Hash
  | .getBlob _ => Bytes

abbrev Reading (Bytes Hash α : Type) :=
  Prog (ReadCall Bytes Hash) ReadCall.Answer Error String α

/-- What a provider answers to each read. -/
abbrev Answers (Bytes Hash : Type) := (call : ReadCall Bytes Hash) → Except Error call.Answer

section Program
variable {Bytes Hash : Type} [DecidableEq Hash] (F : Formats Bytes Hash) (R : Readers Bytes Hash)

def verifyBlob (expected : Hash) (label : String) : Reading Bytes Hash Bytes := do
  let bytes ← Prog.run (ReadCall.getBlob expected) (during ("re-read " ++ label))
  let actual := F.contentHash bytes
  if actual ≠ expected then
    .fail ("re-read " ++ label ++ " is damaged: expected " ++ F.hashText expected ++
      ", computed " ++ F.hashText actual)
  else pure bytes

/-- The loop over the resources of a snapshot. -/
def checkResources (manifest : SampleManifest Hash) :
    List (SnapshotResource Bytes Hash) → Except String Unit
  | [] => .ok ()
  | resource :: rest =>
    match manifest.entries.find? fun entry => decide (entry.path = resource.path) with
    | none => .error ("re-read asset manifest is missing DAWproject resource '" ++ resource.path ++ "'")
    | some entry =>
      if entry.hash ≠ resource.hash ∨ entry.size ≠ resource.size then
        .error ("re-read asset manifest does not match DAWproject resource '" ++ resource.path ++ "'")
      else checkResources manifest rest

/-- The text is the canonical one of the snapshot. -/
def verifySnapshotManifest (canonical snapshotBytes : Bytes) (manifest : SampleManifest Hash) :
    Except String Unit := do
  let hydrates ← R.needsHydration canonical
  if !hydrates then return ()
  else
    match F.decodeValue snapshotBytes with
    | .error e => throw ("serde: " ++ e)
    | .ok value => do
      let resources ← R.resources value
      checkResources manifest resources

def verifyEntry (entry : SampleEntry Hash) : Reading Bytes Hash Unit := do
  let label := "asset `" ++ entry.path ++ "`"
  let bytes ← verifyBlob F entry.hash label
  let actualSize := F.byteLength bytes
  if actualSize ≠ entry.size then
    .fail ("re-read " ++ label ++ " has the wrong size: expected " ++ toString entry.size ++
      " bytes, received " ++ toString actualSize)
  else pure ()

def verifyEntries : List (SampleEntry Hash) → Reading Bytes Hash Unit
  | [] => pure ()
  | entry :: rest => do
    verifyEntry F entry
    verifyEntries rest

def verifyMetadata : Option Hash → Reading Bytes Hash Unit
  | none => pure ()
  | some metadata => do
    let _ ← verifyBlob F metadata "project metadata"
    pure ()

def verifyCommitId (commitId : Hash) (commit : Commit Hash) : Except String Unit :=
  if commit.id ≠ commitId then
    .error ("re-read commit id mismatch: requested " ++ F.hashText commitId ++ ", received " ++
      F.hashText commit.id)
  else
    match FilesystemProvider.computeCommitId F commit with
    | .error e => .error ("validate commit encoding: " ++ e)
    | .ok computed =>
      if computed ≠ commitId then
        .error ("re-read commit is damaged: expected " ++ F.hashText commitId ++ ", computed " ++
          F.hashText computed)
      else .ok ()

def verifyCommitCopy (commitId : Hash) : Reading Bytes Hash Unit := do
  let commit ← Prog.run (ReadCall.getCommit commitId) (during "re-read commit")
  Prog.ofExcept (verifyCommitId F commitId commit)
  let snapshotBytes ← verifyBlob F commit.tree.snapshot "snapshot"
  let canonical ← Prog.ofExcept (wrapped "re-read snapshot is invalid" (R.canonicalBytes snapshotBytes))
  let manifestBytes ← verifyBlob F commit.tree.samples "asset manifest"
  let manifest ← Prog.ofExcept
    (wrapped "re-read asset manifest is invalid" (F.decodeManifest manifestBytes))
  Prog.ofExcept (verifySnapshotManifest F R canonical snapshotBytes manifest)
  verifyMetadata F commit.metadata
  verifyEntries F manifest.entries

end Program

/-! What a verification has read. -/

section Spec
variable {Bytes Hash : Type} {F : Formats Bytes Hash} {R : Readers Bytes Hash}

/-- The provider answers with bytes that hash to what was asked for. -/
def Serves (F : Formats Bytes Hash) (answer : Answers Bytes Hash) (hash : Hash) (bytes : Bytes) :
    Prop :=
  answer (.getBlob hash) = .ok bytes ∧ F.contentHash bytes = hash

/-- A version as it is read: its objects are served under their hashes, its files have the sizes
that the manifest gives, and the manifest accounts for the resources that the snapshot leaves
out. -/
structure CopyOf (F : Formats Bytes Hash) (R : Readers Bytes Hash) (answer : Answers Bytes Hash)
    (commit : Commit Hash) (snapshotBytes : Bytes) (manifest : SampleManifest Hash) : Prop where
  found : answer (.getCommit commit.id) = .ok commit
  computed : FilesystemProvider.computeCommitId F commit = .ok commit.id
  snapshot : Serves F answer commit.tree.snapshot snapshotBytes
  samples : ∃ bytes, Serves F answer commit.tree.samples bytes ∧ F.decodeManifest bytes = .ok manifest
  metadata : ∀ hash ∈ commit.metadata, ∃ bytes, Serves F answer hash bytes
  entries : ∀ entry ∈ manifest.entries, ∃ bytes, Serves F answer entry.hash bytes ∧
    F.byteLength bytes = entry.size
  canonical : ∃ text hydrates, R.canonicalBytes snapshotBytes = .ok text ∧
    R.needsHydration text = .ok hydrates ∧ (hydrates = true → ∃ value resources,
      F.decodeValue snapshotBytes = .ok value ∧ R.resources value = .ok resources ∧
        ∀ resource ∈ resources, ∃ entry,
          manifest.entries.find? (fun entry => decide (entry.path = resource.path)) = some entry ∧
            entry.hash = resource.hash ∧ entry.size = resource.size)

theorem wrapped_ok_iff {α : Type} {what : String} {x : Except String α} {a : α} :
    wrapped what x = .ok a ↔ x = .ok a := by
  cases x <;> simp [wrapped]

variable [DecidableEq Hash] {answer : Answers Bytes Hash}

theorem verifyBlob_ok_iff {expected : Hash} {label : String} {bytes : Bytes} :
    (verifyBlob F expected label).eval answer = .ok bytes ↔ Serves F answer expected bytes := by
  simp only [verifyBlob, Prog.eval_bind_ok_iff, Prog.eval_run_ok_iff, Serves]
  constructor
  · rintro ⟨found, hfound, h⟩
    split at h
    · cases h
    · rename_i hhash
      cases h
      exact ⟨hfound, not_not.mp hhash⟩
  · rintro ⟨hfound, hhash⟩
    exact ⟨bytes, hfound, by rw [if_neg (not_not.mpr hhash)]; rfl⟩

theorem asked_verifyBlob {expected : Hash} {label : String} {bytes : Bytes}
    (h : Serves F answer expected bytes) :
    (verifyBlob F expected label).asked answer = [.getBlob expected] := by
  rw [verifyBlob, Prog.asked_bind (Prog.eval_run_ok_iff.mpr h.1), Prog.asked_run]
  dsimp only
  rw [if_neg (not_not.mpr h.2)]
  rfl

theorem checkResources_ok_iff {manifest : SampleManifest Hash}
    {resources : List (SnapshotResource Bytes Hash)} :
    checkResources manifest resources = .ok () ↔ ∀ resource ∈ resources, ∃ entry,
      manifest.entries.find? (fun entry => decide (entry.path = resource.path)) = some entry ∧
        entry.hash = resource.hash ∧ entry.size = resource.size := by
  induction resources with
  | nil => simp [checkResources]
  | cons resource rest ih =>
    rw [List.forall_mem_cons, checkResources]
    cases hfind : manifest.entries.find? fun entry => decide (entry.path = resource.path) with
    | none => simp
    | some entry =>
      dsimp only
      split
      · rename_i hdiffers
        refine ⟨fun h => (by cases h), ?_⟩
        rintro ⟨⟨found, hfound, hhash, hsize⟩, -⟩
        cases hfound
        exact absurd hdiffers (by simp [hhash, hsize])
      · rename_i hsame
        simp only [not_or, not_not] at hsame
        rw [ih]
        exact ⟨fun h => ⟨⟨entry, rfl, hsame⟩, h⟩, fun h => h.2⟩

theorem verifySnapshotManifest_ok_iff {text snapshotBytes : Bytes} {manifest : SampleManifest Hash} :
    verifySnapshotManifest F R text snapshotBytes manifest = .ok () ↔
      ∃ hydrates, R.needsHydration text = .ok hydrates ∧ (hydrates = true → ∃ value resources,
        F.decodeValue snapshotBytes = .ok value ∧ R.resources value = .ok resources ∧
          ∀ resource ∈ resources, ∃ entry,
            manifest.entries.find? (fun entry => decide (entry.path = resource.path)) = some entry ∧
              entry.hash = resource.hash ∧ entry.size = resource.size) := by
  rw [verifySnapshotManifest, bind_ok_iff]
  refine exists_congr fun hydrates => and_congr_right fun _ => ?_
  cases hydrates with
  | false => simp [pure, Except.pure]
  | true =>
    simp only [Bool.not_true, Bool.false_eq_true, if_false, forall_const]
    cases F.decodeValue snapshotBytes with
    | error e => simp [throw, throwThe, MonadExceptOf.throw]
    | ok value => simp [bind_ok_iff, checkResources_ok_iff]

theorem verifyEntry_ok_iff {entry : SampleEntry Hash} :
    (verifyEntry F entry).eval answer = .ok () ↔
      ∃ bytes, Serves F answer entry.hash bytes ∧ F.byteLength bytes = entry.size := by
  simp only [verifyEntry, Prog.eval_bind_ok_iff, verifyBlob_ok_iff]
  refine exists_congr fun bytes => and_congr_right fun _ => ?_
  split
  · rename_i hsize
    exact ⟨fun h => (by cases h), fun h => absurd h hsize⟩
  · rename_i hsize
    exact ⟨fun _ => not_not.mp hsize, fun _ => rfl⟩

theorem asked_verifyEntry {entry : SampleEntry Hash} {bytes : Bytes}
    (hserves : Serves F answer entry.hash bytes) (hsize : F.byteLength bytes = entry.size) :
    (verifyEntry F entry).asked answer = [.getBlob entry.hash] := by
  rw [verifyEntry, Prog.asked_bind (verifyBlob_ok_iff.mpr hserves), asked_verifyBlob hserves]
  dsimp only
  rw [if_neg (not_not.mpr hsize)]
  rfl

theorem verifyEntries_ok_iff {entries : List (SampleEntry Hash)} :
    (verifyEntries F entries).eval answer = .ok () ↔
      ∀ entry ∈ entries, ∃ bytes, Serves F answer entry.hash bytes ∧
        F.byteLength bytes = entry.size := by
  induction entries with
  | nil => exact ⟨fun _ _ h => absurd h List.not_mem_nil, fun _ => rfl⟩
  | cons entry rest ih =>
    rw [List.forall_mem_cons, ← ih, verifyEntries, Prog.eval_then_ok_iff, verifyEntry_ok_iff]

theorem asked_verifyEntries {entries : List (SampleEntry Hash)}
    (h : ∀ entry ∈ entries, ∃ bytes, Serves F answer entry.hash bytes ∧
      F.byteLength bytes = entry.size) :
    (verifyEntries F entries).asked answer =
      (entries.map SampleEntry.hash).map ReadCall.getBlob := by
  induction entries with
  | nil => rfl
  | cons entry rest ih =>
    obtain ⟨hfirst, hrest⟩ := List.forall_mem_cons.mp h
    obtain ⟨bytes, hserves, hsize⟩ := hfirst
    rw [verifyEntries, Prog.asked_bind (verifyEntry_ok_iff.mpr ⟨bytes, hserves, hsize⟩),
      asked_verifyEntry hserves hsize, ih hrest]
    rfl

theorem verifyMetadata_ok_iff {metadata : Option Hash} :
    (verifyMetadata F metadata).eval answer = .ok () ↔
      ∀ hash ∈ metadata, ∃ bytes, Serves F answer hash bytes := by
  cases metadata with
  | none => exact ⟨fun _ _ h => (by cases h), fun _ => rfl⟩
  | some hash =>
    simp only [verifyMetadata, Prog.eval_bind_ok_iff, verifyBlob_ok_iff, Option.mem_def,
      Option.some.injEq, forall_eq']
    exact ⟨fun ⟨bytes, h, _⟩ => ⟨bytes, h⟩, fun ⟨bytes, h⟩ => ⟨bytes, h, rfl⟩⟩

theorem asked_verifyMetadata {metadata : Option Hash}
    (h : ∀ hash ∈ metadata, ∃ bytes, Serves F answer hash bytes) :
    (verifyMetadata F metadata).asked answer = metadata.toList.map ReadCall.getBlob := by
  cases metadata with
  | none => rfl
  | some hash =>
    obtain ⟨bytes, hserves⟩ := h hash rfl
    rw [verifyMetadata, Prog.asked_bind (verifyBlob_ok_iff.mpr hserves), asked_verifyBlob hserves]
    rfl

theorem verifyCommitId_ok_iff {commitId : Hash} {commit : Commit Hash} :
    verifyCommitId F commitId commit = .ok () ↔
      commit.id = commitId ∧ FilesystemProvider.computeCommitId F commit = .ok commitId := by
  unfold verifyCommitId
  split
  · rename_i hid
    exact ⟨fun h => (by cases h), fun h => absurd h.1 hid⟩
  · rename_i hid
    cases FilesystemProvider.computeCommitId F commit with
    | error e => simp
    | ok computed =>
      dsimp only
      split
      · rename_i hcomputed
        simp [hcomputed]
      · rename_i hcomputed
        exact ⟨fun _ => ⟨not_not.mp hid, congrArg _ (not_not.mp hcomputed)⟩, fun _ => rfl⟩

/-- A verification ends well exactly when the provider serves a whole copy. -/
theorem verifyCommitCopy_ok_iff {commitId : Hash} :
    (verifyCommitCopy F R commitId).eval answer = .ok () ↔ ∃ commit snapshotBytes manifest,
      commit.id = commitId ∧ CopyOf F R answer commit snapshotBytes manifest := by
  unfold verifyCommitCopy
  constructor
  · intro h
    obtain ⟨(commit : Commit Hash), hcommit, h⟩ := Prog.eval_bind_ok_iff.mp h
    obtain ⟨hid, h⟩ := Prog.eval_then_ok_iff.mp h
    obtain ⟨snapshotBytes, hsnapshot, h⟩ := Prog.eval_bind_ok_iff.mp h
    obtain ⟨text, htext, h⟩ := Prog.eval_bind_ok_iff.mp h
    obtain ⟨manifestBytes, hbytes, h⟩ := Prog.eval_bind_ok_iff.mp h
    obtain ⟨manifest, hmanifest, h⟩ := Prog.eval_bind_ok_iff.mp h
    obtain ⟨hchecked, h⟩ := Prog.eval_then_ok_iff.mp h
    obtain ⟨hmetadata, hentries⟩ := Prog.eval_then_ok_iff.mp h
    rw [Prog.eval_ofExcept] at hid htext hmanifest hchecked
    obtain ⟨rfl, hcomputed⟩ := verifyCommitId_ok_iff.mp hid
    obtain ⟨hydrates, hneeds, hresources⟩ := verifySnapshotManifest_ok_iff.mp hchecked
    exact ⟨commit, snapshotBytes, manifest, rfl, Prog.eval_run_ok_iff.mp hcommit, hcomputed,
      verifyBlob_ok_iff.mp hsnapshot,
      ⟨manifestBytes, verifyBlob_ok_iff.mp hbytes, wrapped_ok_iff.mp hmanifest⟩,
      verifyMetadata_ok_iff.mp hmetadata, verifyEntries_ok_iff.mp hentries,
      text, hydrates, wrapped_ok_iff.mp htext, hneeds, hresources⟩
  · rintro ⟨commit, snapshotBytes, manifest, rfl, h⟩
    obtain ⟨manifestBytes, hbytes, hmanifest⟩ := h.samples
    obtain ⟨text, hydrates, htext, hneeds, hresources⟩ := h.canonical
    refine Prog.eval_bind_ok_iff.mpr ⟨commit, Prog.eval_run_ok_iff.mpr h.found, ?_⟩
    refine Prog.eval_then_ok_iff.mpr
      ⟨(Prog.eval_ofExcept _).trans (verifyCommitId_ok_iff.mpr ⟨rfl, h.computed⟩), ?_⟩
    refine Prog.eval_bind_ok_iff.mpr ⟨snapshotBytes, verifyBlob_ok_iff.mpr h.snapshot, ?_⟩
    refine Prog.eval_bind_ok_iff.mpr
      ⟨text, (Prog.eval_ofExcept _).trans (wrapped_ok_iff.mpr htext), ?_⟩
    refine Prog.eval_bind_ok_iff.mpr ⟨manifestBytes, verifyBlob_ok_iff.mpr hbytes, ?_⟩
    refine Prog.eval_bind_ok_iff.mpr
      ⟨manifest, (Prog.eval_ofExcept _).trans (wrapped_ok_iff.mpr hmanifest), ?_⟩
    refine Prog.eval_then_ok_iff.mpr ⟨(Prog.eval_ofExcept _).trans
      (verifySnapshotManifest_ok_iff.mpr ⟨hydrates, hneeds, hresources⟩), ?_⟩
    exact Prog.eval_then_ok_iff.mpr ⟨verifyMetadata_ok_iff.mpr h.metadata,
      verifyEntries_ok_iff.mpr h.entries⟩

/-- It then has read the commit and every object that the commit names, once for each mention. -/
theorem asked_verifyCommitCopy {commit : Commit Hash} {snapshotBytes : Bytes}
    {manifest : SampleManifest Hash} (h : CopyOf F R answer commit snapshotBytes manifest) :
    (verifyCommitCopy F R commit.id).asked answer =
      .getCommit commit.id ::
        (FilesystemProvider.commitBlobs commit manifest).map ReadCall.getBlob := by
  obtain ⟨manifestBytes, hbytes, hmanifest⟩ := h.samples
  obtain ⟨text, hydrates, htext, hneeds, hresources⟩ := h.canonical
  have hchecked : verifySnapshotManifest F R text snapshotBytes manifest = .ok () :=
    verifySnapshotManifest_ok_iff.mpr ⟨hydrates, hneeds, hresources⟩
  have hid : verifyCommitId F commit.id commit = .ok () :=
    verifyCommitId_ok_iff.mpr ⟨rfl, h.computed⟩
  rw [verifyCommitCopy, Prog.asked_bind (Prog.eval_run_ok_iff.mpr h.found), Prog.asked_run,
    Prog.asked_bind ((Prog.eval_ofExcept _).trans hid), Prog.asked_ofExcept,
    Prog.asked_bind (verifyBlob_ok_iff.mpr h.snapshot), asked_verifyBlob h.snapshot,
    Prog.asked_bind ((Prog.eval_ofExcept _).trans (wrapped_ok_iff.mpr htext)), Prog.asked_ofExcept,
    Prog.asked_bind (verifyBlob_ok_iff.mpr hbytes), asked_verifyBlob hbytes,
    Prog.asked_bind ((Prog.eval_ofExcept _).trans (wrapped_ok_iff.mpr hmanifest)),
    Prog.asked_ofExcept, Prog.asked_bind ((Prog.eval_ofExcept _).trans hchecked),
    Prog.asked_ofExcept, Prog.asked_bind (verifyMetadata_ok_iff.mpr h.metadata),
    asked_verifyMetadata h.metadata, asked_verifyEntries h.entries]
  simp [FilesystemProvider.commitBlobs]

end Spec

/-! Two copies. -/

section Agreement
variable {Bytes Hash : Type} {F : Formats Bytes Hash} {R : Readers Bytes Hash}
variable {answer answer' : Answers Bytes Hash}

theorem Serves.agree (hF : F.Lawful) {hash : Hash} {bytes bytes' : Bytes}
    (h : Serves F answer hash bytes) (h' : Serves F answer' hash bytes') : bytes' = bytes :=
  hF.hash_injective (h'.2.trans h.2.symm)

/-- Every object that the commit names is served. -/
theorem CopyOf.serves {commit : Commit Hash} {snapshotBytes : Bytes} {manifest : SampleManifest Hash}
    (h : CopyOf F R answer commit snapshotBytes manifest) {hash : Hash}
    (hmem : hash ∈ FilesystemProvider.commitBlobs commit manifest) :
    ∃ bytes, Serves F answer hash bytes := by
  simp only [FilesystemProvider.commitBlobs, List.mem_append, List.mem_cons, List.not_mem_nil,
    or_false, Option.mem_toList] at hmem
  rcases hmem with ((rfl | rfl) | hmetadata) | hentry
  · exact ⟨snapshotBytes, h.snapshot⟩
  · obtain ⟨bytes, hserves, -⟩ := h.samples
    exact ⟨bytes, hserves⟩
  · exact h.metadata hash hmetadata
  · obtain ⟨entry, he, rfl⟩ := List.mem_map.mp hentry
    obtain ⟨bytes, hserves, -⟩ := h.entries entry he
    exact ⟨bytes, hserves⟩

/-- Copies of one version have the same commit, snapshot and manifest. -/
theorem CopyOf.ext (hF : F.Lawful) {commit commit' : Commit Hash} {snapshotBytes snapshotBytes' : Bytes}
    {manifest manifest' : SampleManifest Hash}
    (h : CopyOf F R answer commit snapshotBytes manifest)
    (h' : CopyOf F R answer' commit' snapshotBytes' manifest') (hid : commit'.id = commit.id)
    (hr : commit.InRange) (hr' : commit'.InRange) :
    commit' = commit ∧ snapshotBytes' = snapshotBytes ∧ manifest' = manifest := by
  obtain rfl := genuine_ext hF ⟨hr', h'.computed⟩ ⟨hr, h.computed⟩ hid
  obtain ⟨bytes, hserves, hdecode⟩ := h.samples
  obtain ⟨bytes', hserves', hdecode'⟩ := h'.samples
  obtain rfl := hserves.agree hF hserves'
  exact ⟨rfl, h.snapshot.agree hF h'.snapshot, Except.ok.inj (hdecode'.symm.trans hdecode)⟩

/-- What the id of a version is read with, whoever is asked. -/
theorem CopyOf.answers_eq (hF : F.Lawful) {commit : Commit Hash} {snapshotBytes : Bytes}
    {manifest : SampleManifest Hash} (h : CopyOf F R answer commit snapshotBytes manifest)
    (h' : CopyOf F R answer' commit snapshotBytes manifest) {call : ReadCall Bytes Hash}
    (hcall : call ∈ ReadCall.getCommit commit.id ::
      (FilesystemProvider.commitBlobs commit manifest).map ReadCall.getBlob) :
    answer' call = answer call := by
  rcases List.mem_cons.mp hcall with rfl | hcall
  · exact h'.found.trans h.found.symm
  · obtain ⟨hash, hmem, rfl⟩ := List.mem_map.mp hcall
    obtain ⟨bytes, hserves⟩ := h.serves hmem
    obtain ⟨bytes', hserves'⟩ := h'.serves hmem
    rw [hserves.1, hserves'.1, hserves.agree hF hserves']

variable [DecidableEq Hash]

end Agreement

end AuruPm
