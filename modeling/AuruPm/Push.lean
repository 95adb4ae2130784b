import AuruPm.Filesystem
import AuruPm.Lib.Threads
import AuruPm.Resolve

/-!
# The push coordinator

`push_with_options` as a program over its provider calls and sidecar reads and writes. What it
does with documents of one format (validation, resources, asset plans, project summaries) is
taken from `Readers` and from the request.
-/

namespace AuruPm

set_option autoImplicit false

open SortedAssoc Threads

/-! The sidecar. -/

/-- A snapshot of local work taken before a merge. -/
structure Stash (Hash : Type) where
  snapshot : Hash
  resources : List (String × Hash)
  createdAt : Int
  base : Option Hash
  reason : String
  deriving DecidableEq

structure RemoteState (Hash : Type) where
  remoteHead : Option Hash
  lastPulled : Option Int
  deriving DecidableEq

/-- The part of a sidecar that a push reads or writes. -/
structure Sidecar (Hash : Type) where
  primary : Option String := none
  localHead : Option Hash := none
  remotes : List (String × RemoteState Hash) := []
  pendingPushes : List Hash := []
  stash : Option (Stash Hash) := none
  deriving DecidableEq

/-! Requests and outcomes. -/

structure ConflictResolution where
  conflict : ConflictedField
  choice : ConflictChoice
  deriving DecidableEq

inductive IntegrityProblem where
  | duplicateModulationId (id : UInt64) (tags : List String)
  | modulationCounterTooLow (nextPointeeId highestAllocated : UInt64)
  | duplicateSiblingId (parent id : String)
  deriving DecidableEq

/-- An archive entry that a DAWproject snapshot describes. -/
structure SnapshotResource (Bytes Hash : Type) where
  path : String
  hash : Hash
  size : Nat
  kind : AssetKind
  inlineData : Option Bytes

/-- An asset to bundle, with what reading its source file gives. -/
structure PlannedAsset (Bytes : Type) where
  bundlePath : String
  contents : Option Bytes
  kind : AssetKind
  origin : Option String

structure PlannedAssets (Bytes : Type) where
  assets : List (PlannedAsset Bytes)
  unavailable : List String

/-- The readers of single snapshot formats. -/
structure Readers (Bytes Hash : Type) where
  /-- `ProjectSnapshot::from_canonical_bytes` followed by `as_bytes`. -/
  canonicalBytes : Bytes → Except String Bytes
  /-- Whether a snapshot is a DAWproject and `requires_resource_hydration`. -/
  needsHydration : Bytes → Except String Bool
  /-- Whether `snapshot_parts_from_value` finds a DAWproject. -/
  isDawproject : Value → Bool
  /-- `snapshot_resources_from_value` -/
  resources : Value → Except String (List (SnapshotResource Bytes Hash))
  /-- `validate_snapshot_value` -/
  integrityProblems : Value → List IntegrityProblem
  /-- `ProjectInfo::from_snapshot` and its encoding. -/
  projectInfo : Value → Option Bytes

/-- The arguments of one push, and what it will find outside the provider and the sidecar. -/
structure PushRequest (Client Bytes Hash : Type) where
  client : Client
  primaryId : String
  /-- Each mirror, with what goes wrong there. -/
  mirrors : List (String × Option String)
  snapshot : Bytes
  author : AuthorIdentity
  message : String
  description : String
  resolutions : Option (List ConflictResolution)
  snapshotResources : List (String × Bytes)
  /-- `plan_assets_with_report` for the project folder and the bundle policy. -/
  planAssets : Value → PlannedAssets Bytes

structure MirrorResult where
  providerId : String
  ok : Bool
  error : Option String
  deriving DecidableEq

inductive PushOutcome (Hash : Type) where
  | committed (commitId : Hash) (wasMerge : Bool) (mirrorResults : List MirrorResult)
    (unavailableAssets : List String)
  | needsResolution (base : Value) (conflicts : List ConflictedField)
  | needsReview (merged : Value) (problems : List IntegrityProblem) (stash : Hash)
  deriving DecidableEq

/-! Calls. -/

/-- Seconds since the epoch, in the range that JSON numbers keep exactly. -/
abbrev Clock := Fin (2 ^ 53)

/-- What numerals of a clock need. -/
instance neZero_clockRange : NeZero (2 ^ 53) := inferInstance

/-- The steps of a push that others can come between. -/
inductive Call (Bytes Hash : Type) where
  | now
  | loadSidecar
  | saveSidecar (sidecar : Sidecar Hash)
  | getHead
  | advanceHead (fromHead : Option Hash) (toHead : Hash)
  | putBlob (hash : Hash) (bytes : Bytes)
  | getBlob (hash : Hash)
  | putCommit (commit : Commit Hash)
  | getCommit (id : Hash)

@[reducible]
def Call.Answer {Bytes Hash : Type} : Call Bytes Hash → Type
  | .now => Clock
  | .loadSidecar => Sidecar Hash
  | .saveSidecar _ => Unit
  | .getHead => Option Hash
  | .advanceHead _ _ => HeadAdvance Hash
  | .putBlob _ _ => Unit
  | .getBlob _ => Bytes
  | .putCommit _ => Unit
  | .getCommit _ => Commit Hash

abbrev Push (Bytes Hash α : Type) := Prog (Call Bytes Hash) Call.Answer Error String α

def during (what : String) (e : Error) : String := what ++ ": " ++ e.text

/-- One call; its failure ends the push. -/
def ask {Bytes Hash : Type} (c : Call Bytes Hash) (what : String) : Push Bytes Hash c.Answer :=
  Prog.run c (during what)

def wrapped {α : Type} (what : String) : Except String α → Except String α
  | .ok a => .ok a
  | .error e => .error (what ++ ": " ++ e)

theorem wrapped_ok {α : Type} {what : String} {x : Except String α} {a : α}
    (h : wrapped what x = .ok a) : x = .ok a := by
  cases x with
  | ok b => exact h
  | error e => cases h

namespace Push

variable {Client Bytes Hash : Type} [DecidableEq Hash] (F : Formats Bytes Hash)
variable (R : Readers Bytes Hash)

/-- `Sidecar::modify` with a closure that may look at the clock. -/
def modifySidecar (what : String) (f : Clock → Sidecar Hash → Sidecar Hash) :
    Push Bytes Hash Unit := do
  let sidecar ← ask .loadSidecar what
  let now ← ask .now what
  ask (.saveSidecar (f now sidecar)) what

/-! Stashing the local work. -/

def stashResource (given : List (String × Bytes)) (resource : SnapshotResource Bytes Hash) :
    Push Bytes Hash (String × Hash) := do
  let label := "stash local DAWproject resource '" ++ resource.path ++ "'"
  match get? given resource.path with
  | none =>
    .fail (label ++
      ": bytes are unavailable; build PushOptions with PushOptions::for_snapshot")
  | some bytes =>
    if F.contentHash bytes ≠ resource.hash ∨ F.byteLength bytes ≠ resource.size then
      .fail (label ++ ": bytes do not match the snapshot hash and size")
    else do
      ask (.putBlob resource.hash bytes) label
      pure (resource.path, resource.hash)

def stashResources (given : List (String × Bytes)) :
    List (SnapshotResource Bytes Hash) → List (String × Hash) → Push Bytes Hash (List (String × Hash))
  | [], stored => pure stored
  | resource :: rest, stored => do
    let entry ← stashResource F given resource
    stashResources given rest (SortedAssoc.insert entry.1 entry.2 stored)

def stashSnapshot (request : PushRequest Client Bytes Hash) (base : Option Hash)
    (reason : String) : Push Bytes Hash Hash := do
  let canonical ← Prog.ofExcept (wrapped "validate local snapshot before stashing"
    (R.canonicalBytes request.snapshot))
  let value ← Prog.ofExcept (wrapped "read local snapshot before stashing" (F.decodeValue canonical))
  let hydrates ← Prog.ofExcept (wrapped "inspect local snapshot before stashing"
    (R.needsHydration canonical))
  let detached ← Prog.ofExcept (wrapped "read local DAWproject resources before stashing"
    (if hydrates then R.resources value else .ok []))
  let resources ← stashResources F request.snapshotResources detached []
  let hash := F.contentHash request.snapshot
  ask (.putBlob hash request.snapshot) "stash local snapshot"
  modifySidecar "record stash in sidecar" fun now sidecar =>
    { sidecar with stash := some ⟨hash, resources, (now.val : Int), base, reason⟩ }
  pure hash

/-! Bringing the inputs of a merge into one representation. -/

/-- One resource of a document with its bytes detached, and the bytes to store for it. -/
def detachResource (resource : Value) (parsed : SnapshotResource Bytes Hash) :
    Except String (Value × Option (String × Hash × Bytes)) :=
  match resource with
  | .object object =>
    if (get? object "id").bind Value.asStr ≠ some parsed.path then
      .error "DAWproject merge resource order changed while normalizing"
    else
      match parsed.inlineData with
      | none => .ok (.object object, none)
      | some bytes =>
        let hash := F.contentHash bytes
        let object := SortedAssoc.insert "hash" (.string (F.hashText hash)) object
        let object := SortedAssoc.insert "size"
          (.number (.posInt (UInt64.ofNat (F.byteLength bytes)))) object
        .ok (.object (erase "data" object), some (parsed.path, hash, bytes))
  | _ => .error "DAWproject merge resource is not an object"

def detachResources : List Value → List (SnapshotResource Bytes Hash) →
    Except String (List Value × List (String × Hash × Bytes))
  | resource :: rest, parsed :: more => do
    let (resource, blob) ← detachResource F resource parsed
    let (rest, blobs) ← detachResources rest more
    return (resource :: rest, blob.toList ++ blobs)
  | rest, _ => .ok (rest, [])

/-- The document with detached resources, and the inline bytes that have to be stored. -/
def normalized (snapshot : Value) : Except String (Value × List (String × Hash × Bytes)) :=
  match snapshot with
  | .object fields =>
    if !R.isDawproject snapshot then .ok (snapshot, [])
    else do
      let parsed ← wrapped "read DAWproject merge resources" (R.resources snapshot)
      let (fields, blobs) ←
        if parsed.isEmpty then pure (fields, [])
        else
          match (get? fields "resources").bind Value.asArray with
          | none => throw "DAWproject merge snapshot is missing its resources"
          | some resources =>
            if resources.length ≠ parsed.length then
              throw "DAWproject merge resource count changed while normalizing"
            else do
              let (resources, blobs) ← detachResources F resources parsed
              pure (SortedAssoc.insert "resources" (.array resources) fields, blobs)
      let snapshot := Value.object
        (SortedAssoc.insert "auru_pm_snapshot" (.number (.posInt 2)) fields)
      let _ ← wrapped "validate normalized DAWproject merge snapshot"
        (R.canonicalBytes (F.encodeValue snapshot))
      return (snapshot, blobs)
  | _ => .ok (snapshot, [])

def storeLegacy : List (String × Hash × Bytes) → Push Bytes Hash Unit
  | [] => pure ()
  | (path, hash, bytes) :: rest => do
    ask (.putBlob hash bytes)
      ("store legacy DAWproject resource '" ++ path ++ "'")
    storeLegacy rest

def normalizeForMerge (snapshot : Value) : Push Bytes Hash Value := do
  let (snapshot, blobs) ← Prog.ofExcept (normalized F R snapshot)
  storeLegacy blobs
  pure snapshot

/-! What to push. -/

/-- The snapshot to commit, its parents and the `HEAD` it replaces. -/
structure Prepared (Bytes Hash : Type) where
  snapshot : Bytes
  parents : List Hash
  wasMerge : Bool
  fromHead : Option Hash

/-- A push has something to commit, or stops for a person to decide. -/
inductive Reconciled (Bytes Hash : Type) where
  | ready (prepared : Prepared Bytes Hash)
  | stopped (outcome : PushOutcome Hash)

def conflictResolutionsMatch (current : List ConflictedField)
    (resolutions : List ConflictResolution) : Bool :=
  decide (current.length = resolutions.length) &&
    (current.zip resolutions).all fun (current, resolution) =>
      decide (current = resolution.conflict)

/-- The merged document, or why there is none to commit. -/
inductive Merged (Hash : Type) where
  | value (merged : Value)
  | stopped (outcome : PushOutcome Hash)

def reviewed (request : PushRequest Client Bytes Hash) (merged : Value) : Merged Hash :=
  let problems := R.integrityProblems merged
  if !problems.isEmpty then
    .stopped (.needsReview merged problems (F.contentHash request.snapshot))
  else .value merged

def mergeAll (request : PushRequest Client Bytes Hash) (ancestor current remote : Value) :
    Except String (Merged Hash) :=
  match merge3 ancestor current remote with
  | .conflict base conflicts =>
    match request.resolutions with
    | none => .ok (.stopped (.needsResolution base conflicts))
    | some resolutions =>
      if !conflictResolutionsMatch conflicts resolutions then
        .ok (.stopped (.needsResolution base conflicts))
      else do
        let choices := (conflicts.zip resolutions).map fun (_, resolution) => resolution.choice
        let merged ← resolveConflicts base conflicts choices
        return reviewed F R request merged
  | .clean merged => .ok (reviewed F R request merged)

/-- The merging branch of a push. -/
def mergeWithRemote (request : PushRequest Client Bytes Hash) (localId remoteId : Hash) :
    Push Bytes Hash (Reconciled Bytes Hash) := do
  let _ ← stashSnapshot F R request (some localId) "before merging with the latest version"
  let ancestorCommit ← ask (.getCommit localId) "get ancestor commit"
  let ancestorBytes ← ask (.getBlob ancestorCommit.tree.snapshot)
    "get ancestor snapshot"
  let remoteCommit ← ask (.getCommit remoteId) "get remote commit"
  let remoteBytes ← ask (.getBlob remoteCommit.tree.snapshot) "get remote snapshot"
  let ancestor ← Prog.ofExcept (wrapped "parse ancestor snapshot" (F.decodeValue ancestorBytes))
  let current ← Prog.ofExcept (wrapped "parse local snapshot" (F.decodeValue request.snapshot))
  let remote ← Prog.ofExcept (wrapped "parse remote snapshot" (F.decodeValue remoteBytes))
  let ancestor ← normalizeForMerge F R ancestor
  let current ← normalizeForMerge F R current
  let remote ← normalizeForMerge F R remote
  match ← Prog.ofExcept (mergeAll F R request ancestor current remote) with
  | .value merged => pure (.ready ⟨F.encodeValue merged, [localId, remoteId], true, some remoteId⟩)
  | .stopped outcome => pure (.stopped outcome)

def reconcile (request : PushRequest Client Bytes Hash) (remoteHead localHead : Option Hash) :
    Push Bytes Hash (Reconciled Bytes Hash) :=
  if remoteHead = localHead then
    pure (.ready ⟨request.snapshot, localHead.toList, false, localHead⟩)
  else
    match localHead with
    | none => pure (.ready ⟨request.snapshot, [], false, none⟩)
    | some localId =>
      match remoteHead with
      | none => .fail "remote HEAD is None but differs from local"
      | some remoteId => mergeWithRemote F R request localId remoteId

/-! The commit. -/

/-- A manifest in the making: its entries, the stored blobs and the missing files. -/
structure Bundle (Bytes Hash : Type) where
  manifest : SampleManifest Hash
  blobs : List (Hash × Bytes)
  unavailable : List String

def Bundle.add (bundle : Bundle Bytes Hash) (entry : SampleEntry Hash) (bytes : Bytes) :
    Bundle Bytes Hash :=
  { bundle with
    manifest := bundle.manifest.insert entry
    blobs := bundle.blobs ++ [(entry.hash, bytes)] }

def bundleAssets : List (PlannedAsset Bytes) → Bundle Bytes Hash → Push Bytes Hash (Bundle Bytes Hash)
  | [], bundle => pure bundle
  | asset :: rest, bundle =>
    match asset.contents with
    | none => bundleAssets rest
        { bundle with unavailable := bundle.unavailable ++ [asset.bundlePath] }
    | some bytes => do
      let hash := F.contentHash bytes
      ask (.putBlob hash bytes) ("put asset blob '" ++ asset.bundlePath ++ "'")
      bundleAssets rest
        (bundle.add ⟨asset.bundlePath, hash, F.byteLength bytes, asset.kind, asset.origin⟩ bytes)

def SnapshotResource.matchedBy (resource : SnapshotResource Bytes Hash) (bytes : Bytes) : Bool :=
  decide (F.contentHash bytes = resource.hash) && decide (F.byteLength bytes = resource.size)

def bundleResource (given : List (String × Bytes)) (resource : SnapshotResource Bytes Hash) :
    Push Bytes Hash Bytes :=
  let candidate := ((get? given resource.path).filter (SnapshotResource.matchedBy F resource)).or
    (resource.inlineData.filter (SnapshotResource.matchedBy F resource))
  match candidate with
  | some bytes => do
    ask (.putBlob resource.hash bytes)
      ("put embedded asset blob '" ++ resource.path ++ "'")
    pure bytes
  | none => do
    let bytes ← Prog.run (Call.getBlob resource.hash) fun e =>
      "DAWproject resource '" ++ resource.path ++
        "' is detached from its snapshot and could not be read from the provider (" ++ e.text ++
        "); build PushOptions with PushOptions::for_snapshot for a newly loaded project"
    if !SnapshotResource.matchedBy F resource bytes then
      .fail ("provider copy of DAWproject resource '" ++ resource.path ++
        "' does not match its snapshot hash and size")
    else pure bytes

def bundleResources (given : List (String × Bytes)) : List (SnapshotResource Bytes Hash) →
    Bundle Bytes Hash → Push Bytes Hash (Bundle Bytes Hash)
  | [], bundle => pure bundle
  | resource :: rest, bundle => do
    let bytes ← bundleResource F given resource
    bundleResources given rest
      (bundle.add ⟨resource.path, resource.hash, resource.size, resource.kind, none⟩ bytes)

def buildSampleManifest (request : PushRequest Client Bytes Hash) (snapshot : Value) :
    Push Bytes Hash (Bundle Bytes Hash) := do
  let planned := request.planAssets snapshot
  let bundle ← bundleAssets F planned.assets ⟨⟨[]⟩, [], planned.unavailable⟩
  let resources ← Prog.ofExcept (wrapped "read DAWproject resources" (R.resources snapshot))
  let bundle ← bundleResources F request.snapshotResources resources bundle
  pure { bundle with unavailable := keySet bundle.unavailable }

def storeProjectInfo (snapshot : Bytes) : Push Bytes Hash (Option Hash) :=
  match (F.decodeValue snapshot).toOption.bind R.projectInfo with
  | none => pure none
  | some bytes => do
    let hash := F.contentHash bytes
    ask (.putBlob hash bytes) "put project info blob"
    pure (some hash)

def snapshotFormatVersion (snapshot : Bytes) : Nat :=
  let version := (F.decodeValue snapshot).toOption.bind fun value =>
    ((value.get "version").or ((value.get "format_version").or (value.get "auru_pm_snapshot"))).bind
      Value.asU64
  match version with
  | some version => if version.toNat < 2 ^ 32 then version.toNat else 8
  | none => 8

def auruVersion : String := "0.1.0"

def writeCommitToPrimary (request : PushRequest Client Bytes Hash) (prepared : Prepared Bytes Hash)
    (manifest : SampleManifest Hash) : Push Bytes Hash (Commit Hash) := do
  let snapshotHash := F.contentHash prepared.snapshot
  ask (.putBlob snapshotHash prepared.snapshot) "put snapshot blob"
  let manifestBytes ← Prog.ofExcept (wrapped "encode sample manifest" (F.encodeManifest manifest))
  let samplesHash := F.contentHash manifestBytes
  ask (.putBlob samplesHash manifestBytes) "put samples blob"
  let metadata ← storeProjectInfo F R prepared.snapshot
  let now ← ask .now "now"
  let draft : Commit Hash :=
    { id := F.zero
      parents := prepared.parents
      tree := ⟨snapshotHash, samplesHash⟩
      author := request.author
      timestamp := now.val
      message := request.message
      description := request.description
      auruVersion := auruVersion
      formatVersion := snapshotFormatVersion F prepared.snapshot
      metadata := metadata }
  let id ← Prog.ofExcept (wrapped "compute commit id"
    (FilesystemProvider.computeCommitId F draft))
  let commit := { draft with id := id }
  ask (.putCommit commit) "put commit"
  match ← ask (.advanceHead prepared.fromHead commit.id) "advance head" with
  | .advanced => pure commit
  | .conflict _ =>
    .fail "HEAD conflict: remote moved again while we were preparing; please retry"

def mirrorResult (mirror : String × Option String) : MirrorResult :=
  ⟨mirror.1, mirror.2.isNone, mirror.2⟩

/-- What the closing `Sidecar::modify` does. -/
def recordCommit (request : PushRequest Client Bytes Hash) (commitId : Hash) (now : Clock)
    (sidecar : Sidecar Hash) : Sidecar Hash :=
  let failed := (request.mirrors.map mirrorResult).any fun result => !result.ok
  { primary := some request.primaryId
    localHead := some commitId
    remotes := SortedAssoc.insert request.primaryId ⟨some commitId, some (now.val : Int)⟩
      sidecar.remotes
    pendingPushes :=
      if failed ∧ commitId ∉ sidecar.pendingPushes then sidecar.pendingPushes ++ [commitId]
      else sidecar.pendingPushes
    stash := none }

def commitPrepared (request : PushRequest Client Bytes Hash) (prepared : Prepared Bytes Hash) :
    Push Bytes Hash (PushOutcome Hash) := do
  let snapshot ← Prog.ofExcept (wrapped "parse final snapshot" (F.decodeValue prepared.snapshot))
  let _ ← Prog.ofExcept (wrapped "validate final snapshot" (R.canonicalBytes prepared.snapshot))
  let bundle ← buildSampleManifest F R request snapshot
  let commit ← writeCommitToPrimary F R request prepared bundle.manifest
  let _ ← Prog.ofExcept (wrapped "encode mirror manifest" (F.encodeManifest bundle.manifest))
  modifySidecar "save sidecar" (recordCommit request commit.id)
  pure (.committed commit.id prepared.wasMerge (request.mirrors.map mirrorResult)
    bundle.unavailable)

/-- `push_with_optional_resolutions` -/
def pushWithOptions (request : PushRequest Client Bytes Hash) :
    Push Bytes Hash (PushOutcome Hash) := do
  let remoteHead ← ask .getHead "get remote head"
  let sidecar ← ask .loadSidecar "load sidecar"
  match ← reconcile F R request remoteHead sidecar.localHead with
  | .stopped outcome => pure outcome
  | .ready prepared => commitPrepared F R request prepared

end Push

end AuruPm
