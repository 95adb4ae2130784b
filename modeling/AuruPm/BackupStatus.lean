import AuruPm.Push
import AuruPm.Server

/-!
# The status of a project on one computer

`ProjectStatus::read_from_disk` judges a project by two ids in its sidecar and by the modification
times of the project file and of the sidecar. The project file is written by saves; the sidecar by
backups, one step at a time, by metadata edits and by lookups of a provider handle. History
variables record which commits the backups made and which copies were verified.
-/

namespace AuruPm.BackupStatus

set_option autoImplicit false

open SortedAssoc Server

variable {Hash : Type} [DecidableEq Hash]

inductive SyncDirection where
  | localAhead
  | upstreamAhead
  deriving DecidableEq

inductive ProjectStatus where
  | neverBackedUp
  | notDownloaded
  | downloaded
  | syncing
  | outOfSync (direction : SyncDirection)
  | conflicted
  deriving DecidableEq

/-- A sidecar with the fields that the push leaves alone. -/
structure ProjectSidecar (Hash : Type) extends Sidecar Hash where
  location : Option ProjectLocation := none
  metadata : ProjectMetadata := ⟨none, []⟩
  providerHandles : List (String × String) := []
  verifiedHead : Option Hash := none

/-- `ProjectStatus::read_from_disk`, from what loading the sidecar gives and from the modification
times of the project file and the sidecar. -/
def ProjectStatus.readFromDisk (sidecar : Except String (ProjectSidecar Hash))
    (project backup : Option Nat) : ProjectStatus :=
  match sidecar with
  | .error _ => .neverBackedUp
  | .ok sidecar =>
    if sidecar.localHead = none then .neverBackedUp
    else if sidecar.verifiedHead ≠ sidecar.localHead then .outOfSync .localAhead
    else
      match project, backup with
      | some project, some backup =>
        if project > backup then .outOfSync .localAhead else .downloaded
      | _, _ => .downloaded

/-! Backups. -/

/-- What starts a backup: the provider, the handle that `project_handle` derives from the path, the
library location and whether uploads are verified. -/
structure Job where
  provider : String
  isLocal : Bool
  handle : String
  location : Option ProjectLocation
  verifyUploads : Bool
  deriving DecidableEq

/-- A prepared backup. Of the snapshot only the time of the save that it shows is kept. -/
structure PreparedBackup where
  shown : Nat
  sourceRevision : Option Nat
  metadata : ProjectMetadata
  location : Option ProjectLocation
  deriving DecidableEq

inductive BackupVerification where
  | skipped
  | verified
  | incomplete (assets : List String)
  | failed
  deriving DecidableEq

/-- Where a backup is. The calls to the provider between two of these write nothing on this
computer. -/
inductive Phase (Hash : Type) where
  | reading (retries : Nat)
  | snapshotting (retries : Nat) (before : Option Nat)
  | comparing (retries : Nat) (before : Option Nat) (shown : Nat)
  | opening (prepared : PreparedBackup)
  | locating (prepared : PreparedBackup)
  | pushing (prepared : PreparedBackup)
  | conflicted (prepared : PreparedBackup)
  | committed (prepared : PreparedBackup) (commit : Hash) (unavailable : List String)
  | rereading (prepared : PreparedBackup) (commit : Hash) (verification : BackupVerification)
  | recording (prepared : PreparedBackup) (commit : Hash) (verification : BackupVerification)

/-- What a backup does next. -/
inductive BackupStep (Hash : Type) where
  | stat (readable : Bool)
  | readSnapshot
  | openProvider
  | saveLocation
  | stash (stash : Stash Hash)
  | commit (commit : Hash) (now : Clock) (unavailable : List String)
  | conflict
  | resolve
  | verify (copy : Bool)
  | reread (history : Bool)
  | record
  | fail

/-- A commit that a backup made, the time of the save that its snapshot showed, and the assets
that were unavailable. -/
structure Made (Hash : Type) where
  commit : Hash
  shown : Nat
  unavailable : List String
  deriving DecidableEq

structure Computer (Hash : Type) where
  now : Nat
  /-- When the project file was last saved. -/
  project : Nat
  /-- What `Sidecar::load` gives. -/
  sidecar : ProjectSidecar Hash
  /-- When the sidecar was last modified, if there is one. -/
  marker : Option Nat
  backup : Option (Job × Phase Hash)
  made : List (Made Hash)
  /-- The commits whose copy `verify_commit_copy` found good. -/
  verified : List Hash

/-- A project just saved, without a sidecar. -/
def Computer.start (now : Nat) : Computer Hash := ⟨now, now, {}, none, none, [], []⟩

/-- The status, with both files readable. -/
def Computer.status (c : Computer Hash) : ProjectStatus :=
  ProjectStatus.readFromDisk (.ok c.sidecar) (some c.project) c.marker

namespace Computer

/-- `Sidecar::modify` -/
def modifySidecar (c : Computer Hash) (f : ProjectSidecar Hash → ProjectSidecar Hash) :
    Computer Hash :=
  { c with sidecar := f c.sidecar, marker := some c.now }

/-- Whether `persisted_project_handle` has to write the sidecar. -/
def lacksHandle (c : Computer Hash) (provider : String) : Bool :=
  (get? c.sidecar.providerHandles provider).isNone

/-- `persisted_project_handle` -/
def persistedProjectHandle (c : Computer Hash) (provider handle : String) : Computer Hash :=
  if c.lacksHandle provider then
    c.modifySidecar fun sidecar =>
      { sidecar with
        providerHandles := SortedAssoc.insert provider handle sidecar.providerHandles }
  else c

/-- `save_project_metadata` on this computer; its last part may fail. -/
def saveProjectMetadata (c : Computer Hash) (metadata : ProjectMetadata)
    (location : Option ProjectLocation) (restores : Bool) : Computer Hash :=
  let backupMarker := c.marker
  let c := c.modifySidecar fun sidecar =>
    { sidecar with metadata := metadata, location := location }
  match backupMarker with
  | some marker => if restores then { c with marker := some marker } else c
  | none => c

def projectModifiedAt (c : Computer Hash) (readable : Bool) : Option Nat :=
  if readable then some c.project else none

def goesTo (c : Computer Hash) (job : Job) (phase : Phase Hash) : Computer Hash :=
  { c with backup := some (job, phase) }

end Computer

/-- What the closing `Sidecar::modify` of a push without mirrors does. -/
def recordCommit (provider : String) (commit : Hash) (now : Clock)
    (sidecar : ProjectSidecar Hash) : ProjectSidecar Hash :=
  { sidecar with
    primary := some provider
    localHead := some commit
    remotes := SortedAssoc.insert provider ⟨some commit, some (now.val : Int)⟩ sidecar.remotes
    stash := none }

theorem recordCommit_push {Client Bytes : Type} {request : PushRequest Client Bytes Hash}
    (h : request.mirrors = []) (commit : Hash) (now : Clock) (sidecar : ProjectSidecar Hash) :
    (recordCommit request.primaryId commit now sidecar).toSidecar =
      Push.recordCommit request commit now sidecar.toSidecar := by
  simp [recordCommit, Push.recordCommit, h]

def verification (job : Job) (unavailable : List String) (copy : Bool) : BackupVerification :=
  if unavailable ≠ [] then .incomplete unavailable
  else if job.verifyUploads then (if copy then .verified else .failed)
  else .skipped

/-- `load_history_after_backup`; `none` where it fails. -/
def loadHistoryAfterBackup (history : Bool) (verification : BackupVerification) :
    Option BackupVerification :=
  if history then some verification
  else
    match verification with
    | .failed => some .failed
    | .incomplete assets => some (.incomplete assets)
    | .verified => some .failed
    | .skipped => none

/-- One step of `prepare_backup`, `back_up_prepared_with_resolutions` or `resolve_backup`; `none`
where the backup does not come to such a step. -/
def Computer.backUp (c : Computer Hash) (job : Job) :
    Phase Hash → BackupStep Hash → Option (Computer Hash)
  | _, .fail => some { c with backup := none }
  | .reading retries, .stat readable =>
    some (c.goesTo job (.snapshotting retries (c.projectModifiedAt readable)))
  | .snapshotting retries before, .readSnapshot =>
    some (c.goesTo job (.comparing retries before c.project))
  | .comparing retries before shown, .stat readable =>
    let after := c.projectModifiedAt readable
    if before = after then
      some (c.goesTo job
        (.opening ⟨shown, after, c.sidecar.metadata, job.location <|> c.sidecar.location⟩))
    else
      match retries with
      | 0 => some { c with backup := none }
      | retries + 1 => some (c.goesTo job (.reading retries))
  | .opening prepared, .openProvider =>
    let c := if job.isLocal then c else c.persistedProjectHandle job.provider job.handle
    some (c.goesTo job (.locating prepared))
  | .locating prepared, .saveLocation =>
    let c :=
      match prepared.location with
      | some location => c.modifySidecar fun sidecar => { sidecar with location := some location }
      | none => c
    some (c.goesTo job (.pushing prepared))
  | .pushing prepared, .stash stash =>
    some ((c.modifySidecar fun sidecar => { sidecar with stash := some stash }).goesTo job
      (.pushing prepared))
  | .pushing prepared, .conflict => some (c.goesTo job (.conflicted prepared))
  | .conflicted prepared, .resolve => some (c.goesTo job (.opening prepared))
  | .pushing prepared, .commit commit now unavailable =>
    -- the id is the hash of a commit that names its parents
    if commit ∈ c.made.map Made.commit then none
    else
      let c := c.modifySidecar (recordCommit job.provider commit now)
      some ({ c with made := ⟨commit, prepared.shown, unavailable⟩ :: c.made }.goesTo job
        (.committed prepared commit unavailable))
  | .committed prepared commit unavailable, .verify copy =>
    let verification := verification job unavailable copy
    let verified := if verification = .verified then commit :: c.verified else c.verified
    some ({ c with verified := verified }.goesTo job (.rereading prepared commit verification))
  | .rereading prepared commit verification, .reread history =>
    match loadHistoryAfterBackup history verification with
    | some verification => some (c.goesTo job (.recording prepared commit verification))
    | none => some { c with backup := none }
  | .recording _ commit verification, .record =>
    let c :=
      if verification = .verified then
        c.modifySidecar fun sidecar => { sidecar with verifiedHead := some commit }
      else c
    some { c with backup := none }
  | _, _ => none

/-! Runs. -/

inductive Event (Hash : Type) where
  | wait (time : Nat)
  /-- The project is saved, later than anything before. -/
  | save (later : Nat)
  | saveMetadata (metadata : ProjectMetadata) (location : Option ProjectLocation) (restores : Bool)
  | lookUpHandle (provider handle : String)
  | beginBackup (job : Job)
  | backUp (step : BackupStep Hash)

def Computer.step (c : Computer Hash) : Event Hash → Option (Computer Hash)
  | .wait time => some { c with now := c.now + time }
  | .save later => some { c with now := c.now + later + 1, project := c.now + later + 1 }
  | .saveMetadata metadata location restores =>
    some (c.saveProjectMetadata metadata location restores)
  | .lookUpHandle provider handle => some (c.persistedProjectHandle provider handle)
  | .beginBackup job =>
    match c.backup with
    | none => some (c.goesTo job (.reading 2))
    | some _ => none
  | .backUp step =>
    match c.backup with
    | none => none
    | some (job, phase) => c.backUp job phase step

def Computer.run (c : Computer Hash) (events : List (Event Hash)) : Option (Computer Hash) :=
  events.foldlM Computer.step c

/-! What the status promises, and what steps keep the promise. -/

/-- Where the status is `Downloaded`, `local_head` names a commit whose copy was verified with
nothing unavailable, and the project has not been saved since the snapshot for it was read. -/
def Computer.Truthful (c : Computer Hash) : Prop :=
  c.status = .downloaded →
    ∃ m ∈ c.made, c.sidecar.localHead = some m.commit ∧ m.unavailable = [] ∧
      m.commit ∈ c.verified ∧ c.project ≤ m.shown

/-- Whether the next event writes the sidecar, at the present time, for another reason than a
commit or its verification. -/
def Computer.rewrites (c : Computer Hash) : Event Hash → Bool
  | .saveMetadata _ _ restores => c.marker.isNone || !restores
  | .lookUpHandle provider _ => c.lacksHandle provider
  | .backUp step =>
    match c.backup, step with
    | some (job, .opening _), .openProvider => !job.isLocal && c.lacksHandle job.provider
    | some (_, .locating prepared), .saveLocation => prepared.location.isSome
    | some (_, .pushing _), .stash _ => true
    | _, _ => false
  | _ => false

/-- The verified backup that the next event records. -/
def Computer.records (c : Computer Hash) : Event Hash → Option PreparedBackup
  | .backUp .record =>
    match c.backup with
    | some (_, .recording prepared _ .verified) => some prepared
    | _ => none
  | _ => none

/-- A sidecar whose heads agree is rewritten only while the project is no newer than the sidecar,
and a verification is recorded only while the project is as the backup read it. -/
def Computer.Careful (c : Computer Hash) (event : Event Hash) : Prop :=
  (c.rewrites event → c.sidecar.localHead ≠ none → c.sidecar.verifiedHead = c.sidecar.localHead →
    ∀ marker ∈ c.marker, c.project ≤ marker) ∧
  ∀ prepared ∈ c.records event, c.project = prepared.shown

end AuruPm.BackupStatus
