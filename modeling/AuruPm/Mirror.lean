import AuruPm.Objects
import AuruPm.PushProtocol
import AuruPm.Lib.Rely

/-!
# Mirrors and the retry queue

`push_to_mirror` and `drain_pending_pushes` as programs over the calls of the provider trait,
and what those calls do to what a provider holds. A provider is only relied on to store what it
accepted and to serve what it was asked for.
-/

namespace AuruPm

set_option autoImplicit false

open SortedAssoc Threads

variable {Bytes Hash : Type}

/-! The programs. -/

/-- The provider calls of a mirror push and of a drain. -/
inductive StoreCall (Bytes Hash : Type) where
  | hasBlobs (hashes : List Hash)
  | getBlob (hash : Hash)
  | getCommit (id : Hash)
  | putBlob (hash : Hash) (bytes : Bytes)
  | putCommit (commit : Commit Hash)
  | advanceHead (fromHead : Option Hash) (toHead : Hash)

@[reducible]
def StoreCall.Answer : StoreCall Bytes Hash → Type
  | .hasBlobs _ => List Bool
  | .getBlob _ => Bytes
  | .getCommit _ => Commit Hash
  | .putBlob _ _ => Unit
  | .putCommit _ => Unit
  | .advanceHead _ _ => HeadAdvance Hash

abbrev MirrorPush (Bytes Hash α : Type) :=
  Prog (StoreCall Bytes Hash) StoreCall.Answer Error String α

def askMirror (call : StoreCall Bytes Hash) (what : String) : MirrorPush Bytes Hash call.Answer :=
  Prog.run call (during what)

def mirrorPutSamples : List (Hash × Bytes) → MirrorPush Bytes Hash Unit
  | [] => pure ()
  | (hash, bytes) :: rest => do
    askMirror (.putBlob hash bytes) "mirror put sample"
    mirrorPutSamples rest

def pushToMirror (commit : Commit Hash) (snapshotBytes manifestBytes : Bytes)
    (sampleBlobs : List (Hash × Bytes)) : MirrorPush Bytes Hash Unit := do
  askMirror (.putBlob commit.tree.snapshot snapshotBytes) "mirror put snapshot"
  mirrorPutSamples sampleBlobs
  askMirror (.putBlob commit.tree.samples manifestBytes) "mirror put samples"
  askMirror (.putCommit commit) "mirror put commit"
  -- the answer to the advance, and its failure, are dropped
  let _ ← Prog.attempt (StoreCall.advanceHead none commit.id)
  pure ()

/-! What a push hands to its mirrors. -/

/-- A commit on the primary, with all that the fan-out replays of it. -/
structure Delivery (Bytes Hash : Type) where
  commit : Commit Hash
  snapshotBytes : Bytes
  manifest : SampleManifest Hash
  manifestBytes : Bytes
  sampleBlobs : List (Hash × Bytes)
  wasMerge : Bool
  unavailable : List String

def Delivery.toMirror (d : Delivery Bytes Hash) : MirrorPush Bytes Hash Unit :=
  pushToMirror d.commit d.snapshotBytes d.manifestBytes d.sampleBlobs

namespace Push

variable {Client : Type} [DecidableEq Hash] (F : Formats Bytes Hash) (R : Readers Bytes Hash)
variable (request : PushRequest Client Bytes Hash)

/-- `commitPrepared` as far as the fan-out. -/
def commitToPrimary (prepared : Prepared Bytes Hash) : Push Bytes Hash (Delivery Bytes Hash) := do
  let snapshot ← Prog.ofExcept (wrapped "parse final snapshot" (F.decodeValue prepared.snapshot))
  let _ ← Prog.ofExcept (wrapped "validate final snapshot" (R.canonicalBytes prepared.snapshot))
  let bundle ← buildSampleManifest F R request snapshot
  let commit ← writeCommitToPrimary F R request prepared bundle.manifest
  let manifestBytes ← Prog.ofExcept
    (wrapped "encode mirror manifest" (F.encodeManifest bundle.manifest))
  pure ⟨commit, prepared.snapshot, bundle.manifest, manifestBytes, bundle.blobs,
    prepared.wasMerge, bundle.unavailable⟩

/-- `commitPrepared` from the fan-out on. -/
def finish (d : Delivery Bytes Hash) : Push Bytes Hash (PushOutcome Hash) := do
  modifySidecar "save sidecar" (recordCommit request d.commit.id)
  pure (.committed d.commit.id d.wasMerge (request.mirrors.map mirrorResult) d.unavailable)

/-- A push as far as the fan-out, or to its end when it commits nothing. -/
def upToMirrors : Push Bytes Hash (PushOutcome Hash ⊕ Delivery Bytes Hash) := do
  let remoteHead ← ask .getHead "get remote head"
  let sidecar ← ask .loadSidecar "load sidecar"
  match ← reconcile F R request remoteHead sidecar.localHead with
  | .stopped outcome => pure (.inl outcome)
  | .ready prepared => do
    let d ← commitToPrimary F R request prepared
    pure (.inr d)

theorem commitPrepared_eq (prepared : Prepared Bytes Hash) :
    commitPrepared F R request prepared = commitToPrimary F R request prepared >>= finish request := by
  simp only [commitPrepared, commitToPrimary, Prog.bind_assoc]
  rfl

theorem pushWithOptions_eq : pushWithOptions F R request = upToMirrors F R request >>= fun
    | .inl outcome => pure outcome
    | .inr d => finish request d := by
  simp only [pushWithOptions, upToMirrors, Prog.bind_assoc]
  congr 1
  funext remoteHead
  congr 1
  funext sidecar
  congr 1
  funext reconciled
  cases reconciled with
  | stopped outcome => rfl
  | ready prepared =>
    simp only [commitPrepared_eq, Prog.bind_assoc]
    rfl

/-- A commit that some push with this request produces. -/
def Produces (d : Delivery Bytes Hash) : Prop := (upToMirrors F R request).Returns (.inr d)

end Push

/-- The steps of a drain that others can come between. -/
inductive DrainCall (Bytes Hash : Type) where
  | loadSidecar
  /-- `Sidecar::modify` with the closure that replaces `pending_pushes`. -/
  | writePending (stillPending : List Hash)
  | onProvider (provider : String) (call : StoreCall Bytes Hash)

@[reducible]
def DrainCall.Answer : DrainCall Bytes Hash → Type
  | .loadSidecar => Sidecar Hash
  | .writePending _ => Unit
  | .onProvider _ call => call.Answer

abbrev Drain (Bytes Hash α : Type) := Prog (DrainCall Bytes Hash) DrainCall.Answer Error Empty α

/-- A commit with all that a drain replays of it. -/
structure Fetched (Bytes Hash : Type) where
  commit : Commit Hash
  snapshotBytes : Bytes
  manifestBytes : Bytes
  manifest : SampleManifest Hash
  sampleBlobs : List (Hash × Bytes)

namespace Drain

variable (F : Formats Bytes Hash)

def attempt (call : DrainCall Bytes Hash) : Drain Bytes Hash (Except Error call.Answer) :=
  Prog.attempt call

def fetchSamples (provider : String) :
    List (SampleEntry Hash) → Drain Bytes Hash (Option (List (Hash × Bytes)))
  | [] => pure (some [])
  | entry :: rest => do
    match ← attempt (.onProvider provider (.getBlob entry.hash)) with
    | .error _ => pure none
    | .ok bytes => do
      let blobs ← fetchSamples provider rest
      pure (blobs.map fun blobs => (entry.hash, bytes) :: blobs)

/-- The commit and everything to replay, from one provider. -/
def fetchFrom (id : Hash) (provider : String) : Drain Bytes Hash (Option (Fetched Bytes Hash)) := do
  match ← attempt (.onProvider provider (.getCommit id)) with
  | .error _ => pure none
  | .ok commit => do
    match ← attempt (.onProvider provider (.getBlob commit.tree.snapshot)) with
    | .error _ => pure none
    | .ok snapshotBytes => do
      match ← attempt (.onProvider provider (.getBlob commit.tree.samples)) with
      | .error _ => pure none
      | .ok manifestBytes =>
        match F.decodeManifest manifestBytes with
        | .error _ => pure none
        | .ok manifest => do
          let blobs ← fetchSamples provider manifest.entries
          pure (blobs.map fun blobs => ⟨commit, snapshotBytes, manifestBytes, manifest, blobs⟩)

/-- The first provider that has everything. -/
def fetch (id : Hash) : List String → Drain Bytes Hash (Option (Fetched Bytes Hash))
  | [] => pure none
  | provider :: rest => do
    match ← fetchFrom F id provider with
    | some fetched => pure (some fetched)
    | none => fetch id rest

def putSamples (provider : String) : List (Hash × Bytes) → Drain Bytes Hash Bool
  | [] => pure true
  | (hash, bytes) :: rest => do
    match ← attempt (.onProvider provider (.putBlob hash bytes)) with
    | .error _ => pure false
    | .ok () => putSamples provider rest

/-- The probe for the snapshot and its upload. A probe that fails skips both. -/
def putSnapshot (provider : String) (fetched : Fetched Bytes Hash) : Drain Bytes Hash Bool := do
  match ← attempt (.onProvider provider (.hasBlobs [fetched.commit.tree.snapshot])) with
  | .error _ => pure true
  | .ok present =>
    if present.head?.getD false then pure true
    else do
      match ← attempt
          (.onProvider provider (.putBlob fetched.commit.tree.snapshot fetched.snapshotBytes)) with
      | .error _ => pure false
      | .ok () => pure true

/-- One provider's turn, and whether it took the commit. -/
def deliverTo (id : Hash) (fetched : Fetched Bytes Hash) (provider : String) :
    Drain Bytes Hash Bool := do
  if !(← putSnapshot provider fetched) then pure false
  else if !(← putSamples provider fetched.sampleBlobs) then pure false
  else do
    match ← attempt
        (.onProvider provider (.putBlob fetched.commit.tree.samples fetched.manifestBytes)) with
    | .error _ => pure false
    | .ok () => do
      match ← attempt (.onProvider provider (.putCommit fetched.commit)) with
      | .error _ => pure false
      | .ok () => do
        let _ ← attempt (.onProvider provider (.advanceHead none id))
        pure true

/-- Every provider has its turn, whatever the others did. -/
def deliverAll (id : Hash) (fetched : Fetched Bytes Hash) : List String → Drain Bytes Hash Bool
  | [] => pure true
  | provider :: rest => do
    let took ← deliverTo id fetched provider
    let all ← deliverAll id fetched rest
    pure (took && all)

/-- One id of the queue, and whether it was delivered. -/
def deliver (providers : List String) (id : Hash) : Drain Bytes Hash Bool := do
  match ← fetch F id providers with
  | none => pure false
  | some fetched => deliverAll id fetched providers

/-- The ids that were not delivered, and how many were. -/
def deliverEach (providers : List String) : List Hash → Drain Bytes Hash (Nat × List Hash)
  | [] => pure (0, [])
  | id :: rest => do
    let delivered ← deliver F providers id
    let (drained, still) ← deliverEach providers rest
    pure (if delivered then (drained + 1, still) else (drained, id :: still))

/-- `drain_pending_pushes` -/
def drainPendingPushes (providers : List String) : Drain Bytes Hash Nat := do
  match ← attempt .loadSidecar with
  | .error _ => pure 0
  | .ok sidecar =>
    if sidecar.pendingPushes.isEmpty || providers.isEmpty then pure 0
    else do
      let (drained, still) ← deliverEach F providers sidecar.pendingPushes
      if 0 < drained then do
        let _ ← attempt (.writePending still)
        pure drained
      else pure drained

end Drain

end AuruPm
