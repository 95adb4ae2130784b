import AuruPm.AutomaticBackup
import Mathlib.Logic.Function.Basic

/-!
# Runs of the automatic backups

Saves, backups, restarts and polls in any order, with one transfer for each project at a time. Every
save is selected, and none that was handed over is selected again.
-/

namespace AuruPm.AutomaticBackup

set_option autoImplicit false

/-- A transfer is prepared from a revision, which is recorded before the upload starts. -/
inductive Transfer where
  | preparing (sourceRevision : Option SystemTime)
  | uploading
  deriving DecidableEq

/-- A project file and its row. The last two fields are history: the recorded attempts, and whether
a save followed the last of them. -/
structure ProjectFile where
  modifiedAt : Option SystemTime := none
  backedUpAt : Option SystemTime := none
  transfer : Option Transfer := none
  handed : List SystemTime := []
  savedSince : Bool := false

namespace ProjectFile

def saved (time : SystemTime) (file : ProjectFile) : ProjectFile :=
  { file with modifiedAt := some time, savedSince := !file.handed.isEmpty }

/-- A backup starts only where none is under way. -/
def prepared (readable : Bool) (file : ProjectFile) : ProjectFile :=
  if file.transfer = none then
    { file with transfer := some (.preparing (if readable then file.modifiedAt else none)) }
  else file

def attempted (revision : Option SystemTime) (file : ProjectFile) : ProjectFile :=
  match revision with
  | some revision =>
    { file with
      transfer := some .uploading
      handed := revision :: file.handed
      savedSince := false }
  | none => { file with transfer := some .uploading }

def completed (time : SystemTime) (file : ProjectFile) : ProjectFile :=
  { file with backedUpAt := some time, transfer := none }

def idle (file : ProjectFile) : ProjectFile := { file with transfer := none }

end ProjectFile

structure ProjectManager where
  files : String → ProjectFile
  automaticBackupScheduler : AutomaticBackupScheduler
  state : AppState

/-- What a poll finds beside the files: whether the modification time can be read, whether the
destination is connected, and whether the status blocks a backup. -/
structure Watch where
  projectId : String
  readable : Bool
  connected : Bool
  backupBlocked : Bool

inductive Event where
  | save (projectId : String) (time : SystemTime)
  | prepare (projectId : String) (readable : Bool)
  | attempt (projectId : String)
  | complete (projectId : String) (time : SystemTime)
  | fail (projectId : String)
  | restart
  | poll (now : SystemTime) (watches : List Watch)

namespace ProjectManager

def start : ProjectManager where
  files _ := {}
  automaticBackupScheduler := .fromAttemptedRevisions []
  state := ⟨.collect []⟩

def change (manager : ProjectManager) (projectId : String) (f : ProjectFile → ProjectFile) :
    ProjectManager :=
  { manager with files := Function.update manager.files projectId (f (manager.files projectId)) }

def recordBackupRevision (manager : ProjectManager) (projectId : String)
    (revision : Option SystemTime) : ProjectManager :=
  { manager with
    automaticBackupScheduler :=
      manager.automaticBackupScheduler.recordBackupAttempt projectId revision
    state := manager.state.recordBackupAttempt projectId revision }

/-- The revision of the last attempt. -/
def last (manager : ProjectManager) (projectId : String) : Option SystemTime :=
  manager.automaticBackupScheduler.attemptedRevisions.get? projectId

/-- The scheduler as the next launch builds it. -/
def rebuild (manager : ProjectManager) : ProjectManager :=
  { manager with automaticBackupScheduler := .fromAttemptedRevisions manager.state.attempts }

def observe (manager : ProjectManager) (watch : Watch) : ProjectObservation where
  projectId := watch.projectId
  modifiedAt := if watch.readable then (manager.files watch.projectId).modifiedAt else none
  backedUpAt := (manager.files watch.projectId).backedUpAt
  backupDestinationReady :=
    (manager.files watch.projectId).backedUpAt.isSome && watch.connected
  backupBlocked := watch.backupBlocked

def poll (manager : ProjectManager) (now : SystemTime) (watches : List Watch) :
    List AutomaticBackupCandidate :=
  manager.automaticBackupScheduler.poll now (watches.map manager.observe)

def step (manager : ProjectManager) : Event → ProjectManager
  | .save projectId time => manager.change projectId (.saved time)
  | .prepare projectId readable => manager.change projectId (.prepared readable)
  | .attempt projectId =>
    match (manager.files projectId).transfer with
    | some (.preparing revision) =>
      (manager.recordBackupRevision projectId revision).change projectId (.attempted revision)
    | _ => manager
  | .complete projectId time => manager.change projectId (.completed time)
  | .fail projectId => manager.change projectId .idle
  | .restart => { manager.rebuild with files := fun projectId => (manager.files projectId).idle }
  | .poll _ _ => manager

def run (manager : ProjectManager) (events : List Event) : ProjectManager := events.foldl step manager

/-- The answers to the polls. -/
def answers (manager : ProjectManager) : List Event → List (List AutomaticBackupCandidate)
  | [] => []
  | .poll now watches :: events => manager.poll now watches :: answers manager events
  | event :: events => answers (manager.step event) events

/-- A save comes at or after the epoch and later than the saves before it. -/
def Allowed (manager : ProjectManager) : Event → Prop
  | .save projectId time =>
    0 ≤ time.val ∧ ∀ last, (manager.files projectId).modifiedAt = some last → last < time
  | _ => True

def Allows (manager : ProjectManager) : List Event → Prop
  | [] => True
  | event :: events => manager.Allowed event ∧ (manager.step event).Allows events

/-! The invariant. -/

/-- The last attempt is the newest revision handed over, and a backup under way is of a revision
that is no older. -/
structure FileInv (last : Option SystemTime) (file : ProjectFile) : Prop where
  saved : ∀ time, file.modifiedAt = some time → 0 ≤ time.val
  handed : ∀ revision ∈ file.handed, ∃ newest, last = some newest ∧ revision ≤ newest
  attempted : ∀ newest, last = some newest →
    newest ∈ file.handed ∧ ∃ time, file.modifiedAt = some time ∧ newest ≤ time
  preparing : ∀ revision, file.transfer = some (.preparing (some revision)) →
    0 ≤ revision.val ∧ (∃ time, file.modifiedAt = some time ∧ revision ≤ time) ∧
      ∀ newest, last = some newest → newest ≤ revision
  since : file.savedSince = true →
    ∃ newest time, last = some newest ∧ file.modifiedAt = some time ∧ newest < time

structure Inv (manager : ProjectManager) : Prop where
  kept : ∀ projectId, manager.last projectId =
    (manager.state.backupAttempts.get? projectId).bind FileRevision.toSystemTime
  files : ∀ projectId, FileInv (manager.last projectId) (manager.files projectId)

variable {manager : ProjectManager}

theorem inv_start : Inv start where
  kept _ := rfl
  files _ :=
    { saved := fun _ h => nomatch h
      handed := fun _ h => nomatch h
      attempted := fun _ h => nomatch h
      preparing := fun _ h => nomatch h
      since := fun h => nomatch h }

theorem get?_rebuild (manager : ProjectManager) (projectId : String) :
    manager.rebuild.last projectId =
      (manager.state.backupAttempts.get? projectId).bind FileRevision.toSystemTime := by
  change SortedAssoc.get? (List.foldl _ _ _) projectId = _
  rw [AppState.attempts, SortedAssoc.get?_foldl_filterMap _ manager.state.backupAttempts.property]
  exact Option.or_none

/-- The next launch knows the same attempts. -/
theorem Inv.rebuild_eq (hinv : Inv manager) : manager.rebuild = manager := by
  obtain ⟨files, ⟨attempts⟩, state⟩ := manager
  have hmap : (rebuild ⟨files, ⟨attempts⟩, state⟩).automaticBackupScheduler.attemptedRevisions =
      attempts :=
    StringMap.ext fun projectId => (get?_rebuild _ projectId).trans (hinv.kept projectId).symm
  exact congrArg (fun attempts => ProjectManager.mk files ⟨attempts⟩ state) hmap

/-- A change of one file that keeps what is known of it. -/
theorem Inv.change (hinv : Inv manager) (projectId : String) (f : ProjectFile → ProjectFile)
    (hf : FileInv (manager.last projectId) (f (manager.files projectId))) :
    Inv (manager.change projectId f) where
  kept := hinv.kept
  files other := by
    change FileInv (manager.last other) (Function.update manager.files projectId _ other)
    by_cases hother : other = projectId
    · subst hother
      rw [Function.update_self]
      exact hf
    · rw [Function.update_of_ne hother]
      exact hinv.files other

section File
variable {last : Option SystemTime} {file : ProjectFile} (hinv : FileInv last file)
include hinv

theorem FileInv.save {time : SystemTime} (hepoch : 0 ≤ time.val)
    (hlater : ∀ before, file.modifiedAt = some before → before < time) :
    FileInv last (file.saved time) where
  saved := by
    rintro _ ⟨⟩
    exact hepoch
  handed := hinv.handed
  attempted newest hlast := by
    obtain ⟨hmem, before, hbefore, hle⟩ := hinv.attempted newest hlast
    exact ⟨hmem, time, rfl, hle.trans (hlater before hbefore).le⟩
  preparing revision hrevision := by
    obtain ⟨hzero, ⟨before, hbefore, hle⟩, hnewest⟩ := hinv.preparing revision hrevision
    exact ⟨hzero, ⟨time, rfl, hle.trans (hlater before hbefore).le⟩, hnewest⟩
  since hsince := by
    rw [ProjectFile.saved] at hsince
    cases hhanded : file.handed with
    | nil =>
      rw [hhanded] at hsince
      cases hsince
    | cons revision rest =>
      obtain ⟨newest, hlast, _⟩ := hinv.handed revision (by rw [hhanded]; exact List.mem_cons_self)
      obtain ⟨_, before, hbefore, hle⟩ := hinv.attempted newest hlast
      exact ⟨newest, time, hlast, rfl, hle.trans_lt (hlater before hbefore)⟩

theorem FileInv.prepare (readable : Bool) : FileInv last (file.prepared readable) := by
  rw [ProjectFile.prepared]
  split
  · refine ⟨hinv.saved, hinv.handed, hinv.attempted, ?_, hinv.since⟩
    intro revision hrevision
    cases readable with
    | false => cases hrevision
    | true =>
      have hsaved : file.modifiedAt = some revision := by simpa using hrevision
      refine ⟨hinv.saved revision hsaved, ⟨revision, hsaved, le_rfl⟩, ?_⟩
      intro newest hlast
      obtain ⟨_, time, htime, hle⟩ := hinv.attempted newest hlast
      rw [hsaved] at htime
      cases htime
      exact hle
  · exact hinv

theorem FileInv.attempt_none : FileInv last (file.attempted none) :=
  ⟨hinv.saved, hinv.handed, hinv.attempted, (fun _ h => nomatch h), hinv.since⟩

theorem FileInv.attempt {revision : SystemTime}
    (hpreparing : file.transfer = some (.preparing (some revision))) :
    FileInv (some revision) (file.attempted (some revision)) := by
  obtain ⟨_, htime, hnewest⟩ := hinv.preparing revision hpreparing
  refine ⟨hinv.saved, ?_, ?_, (fun _ h => nomatch h), (fun h => nomatch h)⟩
  · intro earlier hearlier
    rcases List.mem_cons.mp hearlier with rfl | hearlier
    · exact ⟨earlier, rfl, le_rfl⟩
    · obtain ⟨newest, hlast, hle⟩ := hinv.handed earlier hearlier
      exact ⟨revision, rfl, hle.trans (hnewest newest hlast)⟩
  · rintro _ ⟨⟩
    exact ⟨List.mem_cons_self, htime⟩

theorem FileInv.complete (time : SystemTime) : FileInv last (file.completed time) :=
  ⟨hinv.saved, hinv.handed, hinv.attempted, (fun _ h => nomatch h), hinv.since⟩

theorem FileInv.idle : FileInv last file.idle :=
  ⟨hinv.saved, hinv.handed, hinv.attempted, (fun _ h => nomatch h), hinv.since⟩

end File

theorem last_record (manager : ProjectManager) (projectId : String) (revision : SystemTime)
    (other : String) : (manager.recordBackupRevision projectId (some revision)).last other =
      if other = projectId then some revision else manager.last other :=
  StringMap.get?_insert projectId revision _ other

theorem kept_record {revision : SystemTime} (hepoch : 0 ≤ revision.val) (manager : ProjectManager)
    (projectId other : String) :
    ((manager.recordBackupRevision projectId (some revision)).state.backupAttempts.get? other).bind
        FileRevision.toSystemTime =
      if other = projectId then some revision
      else (manager.state.backupAttempts.get? other).bind FileRevision.toSystemTime := by
  have hround := FileRevision.toSystemTime_fromSystemTime hepoch
  cases hkept : FileRevision.fromSystemTime revision with
  | none =>
    rw [hkept] at hround
    cases hround
  | some kept =>
    rw [hkept, Option.bind_some] at hround
    have hstate : (manager.recordBackupRevision projectId (some revision)).state =
        ⟨manager.state.backupAttempts.insert projectId kept⟩ := by
      rw [recordBackupRevision, AppState.recordBackupAttempt, Option.bind_some, hkept]
    rw [hstate, StringMap.get?_insert]
    split
    · exact hround
    · rfl

theorem Inv.attempt (hinv : Inv manager) (projectId : String) :
    Inv (manager.step (.attempt projectId)) := by
  rw [step]
  split
  · rename_i revision hpreparing
    cases revision with
    | none => exact hinv.change projectId _ (hinv.files projectId).attempt_none
    | some revision =>
      have hepoch := ((hinv.files projectId).preparing revision hpreparing).1
      refine ⟨?_, ?_⟩
      · intro other
        refine (last_record manager projectId revision other).trans ?_
        rw [hinv.kept other]
        exact (kept_record hepoch manager projectId other).symm
      · intro other
        change FileInv ((manager.recordBackupRevision projectId (some revision)).last other)
          (Function.update manager.files projectId _ other)
        rw [last_record]
        by_cases hother : other = projectId
        · subst hother
          rw [if_pos rfl, Function.update_self]
          exact (hinv.files other).attempt hpreparing
        · rw [if_neg hother, Function.update_of_ne hother]
          exact hinv.files other
  · exact hinv

theorem Inv.step (hinv : Inv manager) {event : Event} (hallowed : manager.Allowed event) :
    Inv (manager.step event) := by
  cases event with
  | save projectId time =>
    exact hinv.change projectId _ ((hinv.files projectId).save hallowed.1 hallowed.2)
  | prepare projectId readable =>
    exact hinv.change projectId _ ((hinv.files projectId).prepare readable)
  | attempt projectId => exact hinv.attempt projectId
  | complete projectId time =>
    exact hinv.change projectId _ ((hinv.files projectId).complete time)
  | fail projectId => exact hinv.change projectId _ (hinv.files projectId).idle
  | restart =>
    rw [ProjectManager.step, hinv.rebuild_eq]
    exact ⟨hinv.kept, fun projectId => (hinv.files projectId).idle⟩
  | poll now watches => exact hinv

theorem Inv.run (hinv : Inv manager) {events : List Event} (hallows : manager.Allows events) :
    Inv (manager.run events) := by
  induction events generalizing manager with
  | nil => exact hinv
  | cons event events ih => exact ih (hinv.step hallows.1) hallows.2

/-! What the polls select. -/

theorem handed_step (manager : ProjectManager) (event : Event) {projectId : String}
    {revision : SystemTime} (h : revision ∈ (manager.files projectId).handed) :
    revision ∈ ((manager.step event).files projectId).handed := by
  have hchange : ∀ (other : String) (f : ProjectFile → ProjectFile),
      (∀ file, revision ∈ file.handed → revision ∈ (f file).handed) →
      revision ∈ ((manager.change other f).files projectId).handed := by
    intro other f hf
    change revision ∈ (Function.update manager.files other _ projectId).handed
    by_cases hother : projectId = other
    · subst hother
      rw [Function.update_self]
      exact hf _ h
    · rw [Function.update_of_ne hother]
      exact h
  cases event with
  | save other time => exact hchange other _ fun _ h => h
  | prepare other readable =>
    refine hchange other _ fun file hfile => ?_
    rw [ProjectFile.prepared]
    split <;> exact hfile
  | attempt other =>
    rw [step]
    split
    · rename_i revision' _
      refine hchange other (.attempted revision') fun file hfile => ?_
      cases revision' with
      | none => exact hfile
      | some _ => exact List.mem_cons_of_mem _ hfile
    · exact h
  | complete other time => exact hchange other _ fun _ h => h
  | fail other => exact hchange other _ fun _ h => h
  | restart => exact h
  | poll now watches => exact h

theorem handed_run (manager : ProjectManager) (events : List Event) {projectId : String}
    {revision : SystemTime} (h : revision ∈ (manager.files projectId).handed) :
    revision ∈ ((manager.run events).files projectId).handed := by
  induction events generalizing manager with
  | nil => exact h
  | cons event events ih => exact ih (manager.step event) (handed_step manager event h)

theorem mem_poll {now : SystemTime} {watches : List Watch} {candidate : AutomaticBackupCandidate} :
    candidate ∈ manager.poll now watches ↔ ∃ watch ∈ watches,
      manager.automaticBackupScheduler.judge now (manager.observe watch) = some candidate := by
  rw [poll, AutomaticBackupScheduler.poll, List.filterMap_map, List.mem_filterMap]
  exact Iff.rfl

theorem observe_modifiedAt {watch : Watch} {revision : SystemTime}
    (h : (manager.observe watch).modifiedAt = some revision) :
    (manager.files watch.projectId).modifiedAt = some revision := by
  rw [observe] at h
  dsimp only at h
  split at h
  · exact h
  · cases h

/-- What is selected was not handed over before. -/
theorem Inv.selected_new (hinv : Inv manager) {now : SystemTime} {watches : List Watch}
    {candidate : AutomaticBackupCandidate} (h : candidate ∈ manager.poll now watches) :
    candidate.qualifiedRevision ∉ (manager.files candidate.projectId).handed := by
  obtain ⟨watch, _, hjudge⟩ := mem_poll.mp h
  obtain ⟨hid, hmodified, hnew, _⟩ := AutomaticBackupScheduler.judge_some hjudge
  have hsame : candidate.projectId = watch.projectId := hid
  rw [hsame]
  intro hhanded
  have hfile := hinv.files watch.projectId
  obtain ⟨newest, hlast, hle⟩ := hfile.handed _ hhanded
  obtain ⟨_, time, htime, hge⟩ := hfile.attempted newest hlast
  have hlatest := observe_modifiedAt hmodified
  rw [htime] at hlatest
  cases hlatest
  exact hnew (hlast.trans (congrArg some (le_antisymm hge hle)))

/-- The latest save of a project that is watched, connected and enrolled, five minutes old. -/
structure Due (manager : ProjectManager) (now : SystemTime) (watch : Watch)
    (revision : SystemTime) : Prop where
  latest : (manager.files watch.projectId).modifiedAt = some revision
  quiet : (quietPeriod : Int) ≤ now.val - revision.val
  enrolled : (manager.files watch.projectId).backedUpAt.isSome
  readable : watch.readable = true
  connected : watch.connected = true
  unblocked : watch.backupBlocked = false

/-- The revision was saved after the last attempt or, without an attempt, after the last backup. -/
def Unhandled (file : ProjectFile) (revision : SystemTime) : Prop :=
  file.savedSince = true ∨
    file.handed = [] ∧ ∀ backedUpAt, file.backedUpAt = some backedUpAt → backedUpAt < revision

theorem Inv.selected_of_due (hinv : Inv manager) {now : SystemTime} {watches : List Watch}
    {watch : Watch} (hwatch : watch ∈ watches) {revision : SystemTime}
    (hdue : manager.Due now watch revision)
    (hunhandled : Unhandled (manager.files watch.projectId) revision) :
    ∃ candidate ∈ manager.poll now watches, candidate.projectId = watch.projectId ∧
      candidate.qualifiedRevision = revision := by
  have hfile := hinv.files watch.projectId
  have hready : (manager.observe watch).backupDestinationReady = true := by
    rw [observe, hdue.enrolled, hdue.connected]
    rfl
  have hmodified : (manager.observe watch).modifiedAt = some revision := by
    rw [observe, hdue.readable, if_pos rfl, hdue.latest]
  have hjudge : ∃ reason, manager.automaticBackupScheduler.judge now (manager.observe watch) =
      some ⟨watch.projectId, reason, revision⟩ := by
    rcases hunhandled with hsince | ⟨hnone, hbackup⟩
    · obtain ⟨newest, time, hlast, htime, hlt⟩ := hfile.since hsince
      have hlatest := hdue.latest
      rw [htime] at hlatest
      cases hlatest
      exact AutomaticBackupScheduler.judge_changed hready hdue.unblocked hmodified hdue.enrolled
        hlast hlt.ne hdue.quiet
    · obtain ⟨backedUpAt, hbacked⟩ := Option.isSome_iff_exists.mp hdue.enrolled
      have hlast : manager.last watch.projectId = none := by
        cases hlast : manager.last watch.projectId with
        | none => rfl
        | some newest =>
          have hmem := (hfile.attempted newest hlast).1
          rw [hnone] at hmem
          cases hmem
      exact AutomaticBackupScheduler.judge_unattempted hready hdue.unblocked hmodified hbacked hlast
        (hbackup backedUpAt hbacked) hdue.quiet
  obtain ⟨reason, hjudge⟩ := hjudge
  exact ⟨_, mem_poll.mpr ⟨watch, hwatch, hjudge⟩, rfl, rfl⟩

/-- After every run: no revision that was handed over is selected again, none before it is five
minutes old, one saved after the last attempt is selected as soon as it can be, and the next launch
answers alike. -/
theorem selects_once {events : List Event} (hallows : start.Allows events) :
    (∀ later, (start.run events).Allows later → ∀ now watches,
      ∀ candidate ∈ ((start.run events).run later).poll now watches,
        candidate.qualifiedRevision ∉ ((start.run events).files candidate.projectId).handed) ∧
    (∀ now watches, ∀ candidate ∈ (start.run events).poll now watches,
      (quietPeriod : Int) ≤ now.val - candidate.qualifiedRevision.val) ∧
    (∀ now watches, ∀ watch ∈ watches, ∀ revision, (start.run events).Due now watch revision →
      Unhandled ((start.run events).files watch.projectId) revision →
        ∃ candidate ∈ (start.run events).poll now watches,
          candidate.projectId = watch.projectId ∧ candidate.qualifiedRevision = revision) ∧
    ∀ later, (start.run events).rebuild.answers later = (start.run events).answers later := by
  have hinv := inv_start.run hallows
  refine ⟨?_, ?_, ?_, ?_⟩
  · intro later hlater now watches candidate hcandidate hhanded
    exact (hinv.run hlater).selected_new hcandidate (handed_run _ later hhanded)
  · intro now watches candidate hcandidate
    obtain ⟨watch, _, hjudge⟩ := mem_poll.mp hcandidate
    exact (AutomaticBackupScheduler.judge_some hjudge).2.2.2
  · intro now watches watch hwatch revision hdue hunhandled
    exact hinv.selected_of_due hwatch hdue hunhandled
  · intro later
    rw [hinv.rebuild_eq]

/-! A save during an upload. -/

def savedAt : SystemTime := ⟨0, by decide⟩

def savedDuringUpload : SystemTime := ⟨60 * 10 ^ 9, by decide⟩

def completionTime : SystemTime := ⟨120 * 10 ^ 9, by decide⟩

def quietAgain : SystemTime := ⟨360 * 10 ^ 9, by decide⟩

def uploadRun : List Event :=
  [.save "Song" savedAt, .prepare "Song" true, .attempt "Song", .save "Song" savedDuringUpload,
    .complete "Song" completionTime]

theorem save_during_upload_selected :
    ∃ candidate ∈ (start.run uploadRun).poll quietAgain [⟨"Song", true, true, false⟩],
      candidate.projectId = "Song" ∧ candidate.qualifiedRevision = savedDuringUpload := by
  have hallows : start.Allows uploadRun := by
    refine ⟨⟨by decide, fun _ h => nomatch h⟩, trivial, trivial, ⟨by decide, ?_⟩, trivial, trivial⟩
    intro last hlast
    obtain rfl : savedAt = last := Option.some.inj hlast
    decide
  exact (selects_once hallows).2.2.1 quietAgain _ ⟨"Song", true, true, false⟩
    (List.mem_singleton_self _) savedDuringUpload
    ⟨rfl, by decide, rfl, rfl, rfl, rfl⟩ (Or.inl rfl)

end ProjectManager

end AuruPm.AutomaticBackup
