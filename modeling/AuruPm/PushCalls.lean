import AuruPm.Mirror

/-!
# Which calls a push makes

A push calls for the sidecar and for `HEAD` in few places. All its other parts only read and
write objects.
-/

namespace AuruPm

set_option autoImplicit false

open SortedAssoc Threads

variable {Client Bytes Hash : Type}

/-- Calls that concern neither the sidecar nor `HEAD`. -/
def Call.IsObject : Call Bytes Hash → Prop
  | .now => True
  | .putBlob _ _ => True
  | .getBlob _ => True
  | .putCommit _ => True
  | .getCommit _ => True
  | _ => False

/-- Calls other than for the sidecar. -/
def Call.IsRemote : Call Bytes Hash → Prop
  | .loadSidecar => False
  | .saveSidecar _ => False
  | _ => True

theorem isRemote_of_isObject (c : Call Bytes Hash) (h : c.IsObject) : c.IsRemote := by
  cases c <;> trivial

namespace Push

variable {F : Formats Bytes Hash} {R : Readers Bytes Hash}
variable {request : PushRequest Client Bytes Hash}

theorem only_ask {p : Call Bytes Hash → Prop} {c : Call Bytes Hash} {what : String} (h : p c) :
    (ask c what).Only p :=
  Prog.only_run h

theorem only_storeLegacy {blobs : List (String × Hash × Bytes)} :
    (storeLegacy blobs).Only Call.IsObject := by
  induction blobs with
  | nil => trivial
  | cons blob rest ih => exact (only_ask trivial).bind fun _ => ih

theorem only_normalizeForMerge {raw : Value} : (normalizeForMerge F R raw).Only Call.IsObject :=
  (Prog.only_ofExcept _).bind fun _ => only_storeLegacy.bind fun _ => Prog.only_pure _

theorem only_bundleAssets {assets : List (PlannedAsset Bytes)} {bundle : Bundle Bytes Hash} :
    (bundleAssets F assets bundle).Only Call.IsObject := by
  induction assets generalizing bundle with
  | nil => trivial
  | cons asset rest ih =>
    unfold bundleAssets
    split
    · exact ih
    · exact (only_ask trivial).bind fun _ => ih

theorem only_storeProjectInfo {snapshot : Bytes} :
    (storeProjectInfo F R snapshot).Only Call.IsObject := by
  unfold storeProjectInfo
  split
  · trivial
  · exact (only_ask trivial).bind fun _ => Prog.only_pure _

variable [DecidableEq Hash]

theorem only_stashResource {given : List (String × Bytes)} {resource : SnapshotResource Bytes Hash} :
    (stashResource F given resource).Only Call.IsObject := by
  unfold stashResource
  simp only
  split
  · trivial
  · split
    · trivial
    · exact (only_ask trivial).bind fun _ => Prog.only_pure _

theorem only_stashResources {given : List (String × Bytes)}
    {resources : List (SnapshotResource Bytes Hash)} {stored : List (String × Hash)} :
    (stashResources F given resources stored).Only Call.IsObject := by
  induction resources generalizing stored with
  | nil => trivial
  | cons resource rest ih => exact only_stashResource.bind fun _ => ih

theorem only_bundleResource {given : List (String × Bytes)} {resource : SnapshotResource Bytes Hash} :
    (bundleResource F given resource).Only Call.IsObject := by
  unfold bundleResource
  simp only
  split
  · exact (only_ask trivial).bind fun _ => Prog.only_pure _
  · refine (Prog.only_run trivial).bind fun bytes => ?_
    split <;> trivial

theorem only_bundleResources {given : List (String × Bytes)}
    {resources : List (SnapshotResource Bytes Hash)} {bundle : Bundle Bytes Hash} :
    (bundleResources F given resources bundle).Only Call.IsObject := by
  induction resources generalizing bundle with
  | nil => trivial
  | cons resource rest ih => exact only_bundleResource.bind fun _ => ih

theorem only_buildSampleManifest {snapshot : Value} :
    (buildSampleManifest F R request snapshot).Only Call.IsObject :=
  only_bundleAssets.bind fun _ => (Prog.only_ofExcept _).bind fun _ =>
    only_bundleResources.bind fun _ => Prog.only_pure _

/-! The parts around the calls for the sidecar and for `HEAD`. -/

/-- `mergeWithRemote` once the local work is stashed. -/
def mergeStashed (F : Formats Bytes Hash) (R : Readers Bytes Hash)
    (request : PushRequest Client Bytes Hash) (localId remoteId : Hash) :
    Push Bytes Hash (Reconciled Bytes Hash) := do
  let ancestorCommit ← ask (.getCommit localId) "get ancestor commit"
  let ancestorBytes ← ask (.getBlob ancestorCommit.tree.snapshot)
    "get ancestor snapshot"
  let remoteCommit ← ask (.getCommit remoteId) "get remote commit"
  let remoteBytes ← ask (.getBlob remoteCommit.tree.snapshot) "get remote snapshot"
  let ancestor ← Prog.ofExcept (wrapped "parse ancestor snapshot" (F.decodeValue ancestorBytes))
  let current ← Prog.ofExcept (wrapped "parse local snapshot" (F.decodeValue request.snapshot))
  let remote ← Prog.ofExcept (wrapped "parse remote snapshot" (F.decodeValue remoteBytes))
  let ancestor ← normalizeForMerge F R ancestor
  let current ← normalizeForMerge F R current
  let remote ← normalizeForMerge F R remote
  match ← Prog.ofExcept (mergeAll F R request ancestor current remote) with
  | .value merged => pure (.ready ⟨F.encodeValue merged, [localId, remoteId], true, some remoteId⟩)
  | .stopped outcome => pure (.stopped outcome)

theorem mergeWithRemote_eq (localId remoteId : Hash) :
    mergeWithRemote F R request localId remoteId =
      stashSnapshot F R request (some localId) "before merging with the latest version" >>=
        fun _ => mergeStashed F R request localId remoteId :=
  rfl

omit [DecidableEq Hash]

theorem only_mergeStashed {localId remoteId : Hash} :
    (mergeStashed F R request localId remoteId).Only Call.IsObject := by
  refine (only_ask trivial).bind fun ancestorCommit => (only_ask trivial).bind fun ancestorBytes => ?_
  refine (only_ask trivial).bind fun remoteCommit => (only_ask trivial).bind fun remoteBytes => ?_
  refine (Prog.only_ofExcept _).bind fun _ => (Prog.only_ofExcept _).bind fun _ => ?_
  refine (Prog.only_ofExcept _).bind fun _ => only_normalizeForMerge.bind fun _ => ?_
  refine only_normalizeForMerge.bind fun _ => only_normalizeForMerge.bind fun _ => ?_
  refine (Prog.only_ofExcept _).bind fun merged => ?_
  cases merged <;> trivial

/-- `writeCommitToPrimary` before it advances `HEAD`. -/
def storeCommit (F : Formats Bytes Hash) (R : Readers Bytes Hash)
    (request : PushRequest Client Bytes Hash) (prepared : Prepared Bytes Hash)
    (manifest : SampleManifest Hash) : Push Bytes Hash (Commit Hash) := do
  let snapshotHash := F.contentHash prepared.snapshot
  ask (.putBlob snapshotHash prepared.snapshot) "put snapshot blob"
  let manifestBytes ← Prog.ofExcept (wrapped "encode sample manifest" (F.encodeManifest manifest))
  let samplesHash := F.contentHash manifestBytes
  ask (.putBlob samplesHash manifestBytes) "put samples blob"
  let metadata ← storeProjectInfo F R prepared.snapshot
  let now ← ask .now "now"
  let draft : Commit Hash :=
    { id := F.zero
      parents := prepared.parents
      tree := ⟨snapshotHash, samplesHash⟩
      author := request.author
      timestamp := now.val
      message := request.message
      description := request.description
      auruVersion := auruVersion
      formatVersion := snapshotFormatVersion F prepared.snapshot
      metadata := metadata }
  let id ← Prog.ofExcept (wrapped "compute commit id"
    (FilesystemProvider.computeCommitId F draft))
  let commit := { draft with id := id }
  ask (.putCommit commit) "put commit"
  pure commit

/-- `writeCommitToPrimary` from the advance on. -/
def publish (fromHead : Option Hash) (commit : Commit Hash) : Push Bytes Hash (Commit Hash) := do
  match ← ask (.advanceHead fromHead commit.id) "advance head" with
  | .advanced => pure commit
  | .conflict _ =>
    .fail "HEAD conflict: remote moved again while we were preparing; please retry"

theorem writeCommitToPrimary_eq (prepared : Prepared Bytes Hash) (manifest : SampleManifest Hash) :
    writeCommitToPrimary F R request prepared manifest =
      storeCommit F R request prepared manifest >>= publish prepared.fromHead := by
  simp only [writeCommitToPrimary, storeCommit, publish, Prog.bind_assoc, Prog.pure_eq,
    Prog.done_bind]
  repeat refine congrArg _ (funext fun _ => ?_)
  rename_i answer
  cases answer <;> rfl

theorem only_storeCommit {prepared : Prepared Bytes Hash} {manifest : SampleManifest Hash} :
    (storeCommit F R request prepared manifest).Only Call.IsObject :=
  (only_ask trivial).bind fun _ => (Prog.only_ofExcept _).bind fun _ => (only_ask trivial).bind fun _ =>
    only_storeProjectInfo.bind fun _ => (only_ask trivial).bind fun _ =>
      (Prog.only_ofExcept _).bind fun _ => (only_ask trivial).bind fun _ => Prog.only_pure _

theorem only_commitToPrimary [DecidableEq Hash] {prepared : Prepared Bytes Hash} :
    (commitToPrimary F R request prepared).Only Call.IsRemote := by
  refine (Prog.only_ofExcept _).bind fun _ => (Prog.only_ofExcept _).bind fun _ => ?_
  refine (only_buildSampleManifest.imp isRemote_of_isObject).bind fun _ => ?_
  rw [writeCommitToPrimary_eq]
  refine ((only_storeCommit.imp isRemote_of_isObject).bind fun _ => ?_).bind fun _ =>
    (Prog.only_ofExcept _).bind fun _ => Prog.only_pure _
  refine (only_ask trivial).bind fun answer => ?_
  cases answer <;> trivial

end Push

end AuruPm
