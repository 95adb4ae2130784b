import AuruPm.Cas
import AuruPm.Lib.Walk
import AuruPm.Lib.Worklist

/-!
# The filesystem provider

A repository folder: `HEAD`, `HISTORY_FLOOR`, the blob store and the commit store. A control
file is taken by what `read_control_file` gets from it, the primary or the backup. The three
calls that hold the repository lock for several steps are single functions here.
-/

namespace AuruPm

set_option autoImplicit false

open SortedAssoc

/-- Contents of a control file. -/
inductive ControlFile (Hash : Type) where
  | missing
  | blank
  | names (id : Hash)
  /-- Text that is not a hash, with the parser's complaint. -/
  | garbled (why : String)
  deriving DecidableEq

structure FilesystemProvider (Bytes Hash : Type) where
  head : ControlFile Hash
  floor : ControlFile Hash
  blobs : Cas Bytes Hash
  commits : Cas Bytes Hash

/-- Which file operations of one call fail, and with what. -/
structure Faults (Hash : Type) where
  lock : Option String := none
  head : Option String := none
  floor : Option String := none
  writeFloor : Option String := none
  blobs : CasFaults Hash := {}
  commits : CasFaults Hash := {}

inductive RetentionRule where
  | latest (count : Nat)
  | since (timestamp : Int)
  deriving DecidableEq

structure RetentionRoots (Hash : Type) where
  commits : List Hash
  blobs : List Hash

structure RetentionReport where
  versionsRemoved : Nat
  objectsRemoved : Nat
  bytesFreed : Nat
  deriving DecidableEq

inductive HeadAdvance (Hash : Type) where
  | advanced
  | conflict (current : Option Hash)
  deriving DecidableEq

/-- `Iterator::rposition`. -/
def rposition {α : Type} (p : α → Bool) : List α → Option Nat
  | [] => none
  | x :: xs =>
    match rposition p xs with
    | some i => some (i + 1)
    | none => if p x then some 0 else none

def RetentionRule.retainedPrefixLen (rule : RetentionRule) (timestamps : List Int) : Nat :=
  if timestamps.isEmpty then 0
  else
    match rule with
    | .latest count => min (max count 1) timestamps.length
    | .since timestamp =>
      match rposition (fun candidate => decide (timestamp ≤ candidate)) timestamps with
      | some index => index + 1
      | none => 1

def defaultHistoryLimit : Nat := 100

def retentionGcGraceSecs : Nat := 60 * 60

namespace FilesystemProvider

variable {Bytes Hash : Type} [DecidableEq Hash] (F : Formats Bytes Hash) (io : Faults Hash)

def readHead (p : FilesystemProvider Bytes Hash) : Except Error (Option Hash) :=
  orFail io.head <|
    match p.head with
    | .missing => .ok none
    | .blank => .ok none
    | .names id => .ok (some id)
    | .garbled why => .error (.other ("invalid HEAD contents: " ++ why))

def readCommit (p : FilesystemProvider Bytes Hash) (id : Hash) : Except Error (Commit Hash) := do
  let bytes ← p.commits.get F io.commits id
  let commit ← ofSerde (F.decodeCommit bytes)
  return { commit with id := id }

def readHistoryFloor (p : FilesystemProvider Bytes Hash) : Except Error (Option Hash) :=
  orFail io.floor <|
    match p.floor with
    | .missing => .ok none
    | .blank => .error (.other "invalid history floor: hash must be prefixed `blake3:`")
    | .names id => .ok (some id)
    | .garbled why => .error (.other ("invalid history floor: " ++ why))

/-- First parents from a commit down, as far as the floor. -/
def firstParents (p : FilesystemProvider Bytes Hash) (floor start : Option Hash) :
    Except Error (List (Commit Hash)) :=
  Walk.walk .endless (p.readCommit F io) (fun commit => commit.parents.head?)
    (fun id => decide (some id = floor)) p.commits.length start

def visibleCommits (p : FilesystemProvider Bytes Hash) : Except Error (List (Commit Hash)) := do
  let floor ← p.readHistoryFloor io
  let head ← p.readHead io
  p.firstParents F io floor head

/-- What the worklist of `retention_graph` pushes after a commit. -/
def graphParents (floor id : Hash) (commit : Commit Hash) : List Hash :=
  if id = floor then [] else commit.parents

def graphRoots (retained : List (Commit Hash)) (roots : RetentionRoots Hash) : List Hash :=
  (retained.map Commit.id ++ roots.commits).reverse

/-- The commit as the history walk read it, or read again. -/
def graphCommit (p : FilesystemProvider Bytes Hash) (retained : List (Commit Hash)) (id : Hash) :
    Except Error (Commit Hash) :=
  match retained.find? fun commit => decide (commit.id = id) with
  | some commit => .ok commit
  | none => p.readCommit F io id

def retentionGraph (p : FilesystemProvider Bytes Hash) (retained : List (Commit Hash))
    (floor : Hash) (roots : RetentionRoots Hash) : Except Error (List (Commit Hash)) :=
  let read := p.graphCommit F io retained
  let pending := graphRoots retained roots
  Worklist.collect .endless read (graphParents floor)
    (Worklist.budget read (graphParents floor) (p.commits.map Prod.fst) pending) pending [] []

def readManifest (p : FilesystemProvider Bytes Hash) (commit : Commit Hash) :
    Except Error (SampleManifest Hash) := do
  let bytes ← p.blobs.get F io.blobs commit.tree.samples
  ofSerde (F.decodeManifest bytes)

/-- The blobs that one commit keeps alive. -/
def commitBlobs (commit : Commit Hash) (manifest : SampleManifest Hash) : List Hash :=
  [commit.tree.snapshot, commit.tree.samples] ++ commit.metadata.toList ++
    manifest.entries.map SampleEntry.hash

def reachableFrom (p : FilesystemProvider Bytes Hash) :
    List (Commit Hash) → Except Error (List Hash)
  | [] => .ok []
  | commit :: commits => do
    let manifest ← p.readManifest F io commit
    let rest ← reachableFrom p commits
    return commitBlobs commit manifest ++ rest

def reachableBlobs (p : FilesystemProvider Bytes Hash) (commits : List (Commit Hash))
    (roots : RetentionRoots Hash) : Except Error (List Hash) := do
  let reachable ← p.reachableFrom F io commits
  return reachable ++ roots.blobs

def validateCommitObjects (p : FilesystemProvider Bytes Hash) (commit : Commit Hash) :
    Except Error Unit :=
  if !p.blobs.has commit.tree.snapshot then .error (.notFound (F.hashText commit.tree.snapshot))
  else
    match commit.metadata.filter fun metadata => !p.blobs.has metadata with
    | some metadata => .error (.notFound (F.hashText metadata))
    | none => do
      let manifest ← p.readManifest F io commit
      match (manifest.entries.map SampleEntry.hash).find? fun hash => !p.blobs.has hash with
      | some missing => .error (.notFound (F.hashText missing))
      | none => .ok ()

/-- What a retention pass decides before it touches a file. -/
structure Plan (Hash : Type) where
  floor : Hash
  versionsRemoved : Nat
  retained : List (Commit Hash)
  graph : List (Commit Hash)
  blobs : List Hash

def planRetention (rule : RetentionRule) (roots : RetentionRoots Hash)
    (p : FilesystemProvider Bytes Hash) : Except Error (Option (Plan Hash)) := do
  orFail io.lock (.ok ())
  let history ← p.visibleCommits F io
  let retainedLen := rule.retainedPrefixLen (history.map Commit.timestamp)
  match if retainedLen = 0 then none else history[retainedLen - 1]? with
  | none => return none
  | some last =>
    let retained := history.take retainedLen
    let graph ← p.retentionGraph F io retained last.id roots
    let blobs ← p.reachableBlobs F io graph roots
    return some ⟨last.id, history.length - retainedLen, retained, graph, blobs⟩

/-- How a retention pass leaves the folder, whether it wrote the floor, and its answer. -/
structure Pruned (Bytes Hash : Type) where
  provider : FilesystemProvider Bytes Hash
  floorWritten : Bool
  result : Except Error RetentionReport

def noGc : GcReport := ⟨0, 0, 0⟩

/-- The deleting half of a pass. -/
def sweep (now grace : Nat) (plan : Plan Hash) (p : FilesystemProvider Bytes Hash) :
    FilesystemProvider Bytes Hash × Except Error RetentionReport :=
  let (blobs, blobResult) := Cas.gc F io.blobs now grace plan.blobs p.blobs noGc
  match blobResult with
  | .error e => ({ p with blobs := blobs }, .error e)
  | .ok blobReport =>
    let (commits, commitResult) :=
      Cas.gc F io.commits now grace (plan.graph.map Commit.id) p.commits noGc
    ({ p with blobs := blobs, commits := commits },
      commitResult.map fun commitReport =>
        { versionsRemoved := plan.versionsRemoved
          objectsRemoved := blobReport.freedCount + commitReport.freedCount
          bytesFreed := blobReport.freedBytes + commitReport.freedBytes })

def pruneHistoryWithGrace (rule : RetentionRule) (roots : RetentionRoots Hash)
    (now grace : Nat) (p : FilesystemProvider Bytes Hash) : Pruned Bytes Hash :=
  match p.planRetention F io rule roots with
  | .error e => ⟨p, false, .error e⟩
  | .ok none => ⟨p, false, .ok ⟨0, 0, 0⟩⟩
  | .ok (some plan) =>
    match io.writeFloor with
    | some detail => ⟨p, false, .error (.io detail)⟩
    | none =>
      let (swept, result) := sweep F io now grace plan { p with floor := .names plan.floor }
      ⟨swept, true, result⟩

def pruneHistory (rule : RetentionRule) (roots : RetentionRoots Hash) (now : Nat)
    (p : FilesystemProvider Bytes Hash) : Pruned Bytes Hash :=
  p.pruneHistoryWithGrace F io rule roots now retentionGcGraceSecs

/-! The calls of the provider trait. -/

def putBlob (now : Nat) (hash : Hash) (bytes : Bytes) (p : FilesystemProvider Bytes Hash) :
    Except Error (FilesystemProvider Bytes Hash) :=
  (p.blobs.put F now hash bytes).map fun blobs => { p with blobs := blobs }

def getBlob (hash : Hash) (p : FilesystemProvider Bytes Hash) : Except Error Bytes :=
  p.blobs.get F io.blobs hash

def computeCommitId (commit : Commit Hash) : Except String Hash :=
  (F.encodeCommit commit).map F.contentHash

def putCommit (now : Nat) (commit : Commit Hash) (p : FilesystemProvider Bytes Hash) :
    Except Error (FilesystemProvider Bytes Hash) := do
  let computed ← ofSerde (computeCommitId F commit)
  if computed ≠ commit.id then
    throw (.other ("commit id mismatch: caller said " ++ F.hashText commit.id ++
      ", canonical encoding hashes to " ++ F.hashText computed))
  let bytes ← ofSerde (F.encodeCommit commit)
  let commits ← p.commits.put F now commit.id bytes
  return { p with commits := commits }

def getCommit (id : Hash) (p : FilesystemProvider Bytes Hash) : Except Error (Commit Hash) :=
  p.readCommit F io id

/-- The loop of `list_history`, one commit a round. -/
def historyLoop (p : FilesystemProvider Bytes Hash) (floor before : Option Hash) (limit : Nat) :
    Nat → Option Hash → Bool → List (CommitSummary Hash) → Except Error (List (CommitSummary Hash))
  | _, none, _, out => .ok out
  | 0, some _, _, _ => .error .endless
  | rounds + 1, some id, started, out =>
    match p.readCommit F io id with
    | .error e => .error e
    | .ok commit =>
      let out' := if started then out ++ [commit.summary] else out
      if started ∧ limit ≤ out'.length then .ok out'
      else if some id = floor then .ok out'
      else
        historyLoop p floor before limit rounds commit.parents.head?
          (started || decide (some id = before)) out'

def listHistory (range : HistoryRange Hash) (p : FilesystemProvider Bytes Hash) :
    Except Error (List (CommitSummary Hash)) := do
  orFail io.lock (.ok ())
  let limit := range.limit.getD defaultHistoryLimit
  let floor ← p.readHistoryFloor io
  let head ← p.readHead io
  p.historyLoop F io floor range.before limit p.commits.length head range.before.isNone []

def getHead (p : FilesystemProvider Bytes Hash) : Except Error (Option Hash) := do
  orFail io.lock (.ok ())
  p.readHead io

def advanceHead (fromHead : Option Hash) (toHead : Hash) (p : FilesystemProvider Bytes Hash) :
    Except Error (FilesystemProvider Bytes Hash × HeadAdvance Hash) := do
  orFail io.lock (.ok ())
  let current ← p.readHead io
  if current ≠ fromHead then return (p, .conflict current)
  let floor ← p.readHistoryFloor io
  if floor.isSome then
    let commit ← p.readCommit F io toHead
    p.validateCommitObjects F io commit
  return ({ p with head := .names toHead }, .advanced)

end FilesystemProvider

end AuruPm
