import AuruPm.Lib.SortedAssoc
import Mathlib.Order.Lattice
import Mathlib.Algebra.Order.Ring.Int
import Mathlib.Data.String.Basic

/-!
# Automatic backups

Which saves the scheduler of automatic backups selects. It keeps, for each project, the revision
of the last attempt, and the state file keeps the same between launches.
-/

namespace AuruPm.AutomaticBackup

set_option autoImplicit false

open SortedAssoc

/-! Times. -/

/-- The nanoseconds of as many seconds as an `i64` counts. -/
def maxNanos : Int := 2 ^ 63 * 10 ^ 9

/-- Nanoseconds since the epoch, where the seconds fit in an `i64`. -/
abbrev SystemTime := { nanos : Int // -maxNanos ≤ nanos ∧ nanos < maxNanos }

/-- `duration_since`, in nanoseconds. -/
def durationSince (later earlier : SystemTime) : Option Nat :=
  if earlier.val ≤ later.val then some (later.val - earlier.val).toNat else none

structure FileRevision where
  unixSeconds : Nat
  nanoseconds : Nat
  deriving DecidableEq

namespace FileRevision

def fromSystemTime (time : SystemTime) : Option FileRevision :=
  if 0 ≤ time.val then some ⟨time.val.toNat / 10 ^ 9, time.val.toNat % 10 ^ 9⟩ else none

def toSystemTime (revision : FileRevision) : Option SystemTime :=
  if 10 ^ 9 ≤ revision.nanoseconds then none
  else
    let nanos : Int := (revision.unixSeconds * 10 ^ 9 + revision.nanoseconds : Nat)
    if h : -maxNanos ≤ nanos ∧ nanos < maxNanos then some ⟨nanos, h⟩ else none

/-- The state file keeps every time from the epoch on. -/
theorem toSystemTime_fromSystemTime {time : SystemTime} (h : 0 ≤ time.val) :
    (fromSystemTime time).bind toSystemTime = some time := by
  have hmod : ¬ 10 ^ 9 ≤ time.val.toNat % 10 ^ 9 := by omega
  have hval : ((time.val.toNat / 10 ^ 9 * 10 ^ 9 + time.val.toNat % 10 ^ 9 : Nat) : Int) =
      time.val := by omega
  rw [fromSystemTime, if_pos h, Option.bind_some, toSystemTime, if_neg hmod]
  simp only [hval, time.property, and_self, dite_true]

end FileRevision

/-! The scheduler. -/

/-- A map whose keys are texts. -/
abbrev StringMap (V : Type) := { entries : List (String × V) // Sorted entries }

namespace StringMap
variable {V : Type}

def get? (m : StringMap V) (key : String) : Option V := SortedAssoc.get? m.val key

def insert (key : String) (value : V) (m : StringMap V) : StringMap V :=
  ⟨SortedAssoc.insert key value m.val, sorted_insert m.property key value⟩

def collect (entries : List (String × V)) : StringMap V :=
  ⟨entries.foldl (fun m e => SortedAssoc.insert e.1 e.2 m) [],
    sorted_foldl_insert entries List.Pairwise.nil⟩

theorem get?_insert (key : String) (value : V) (m : StringMap V) (key' : String) :
    (m.insert key value).get? key' = if key' = key then some value else m.get? key' :=
  SortedAssoc.get?_insert key value m.val key'

theorem ext {m m' : StringMap V} (h : ∀ key, m.get? key = m'.get? key) : m = m' :=
  Subtype.ext (SortedAssoc.ext m.property m'.property h)

end StringMap

def quietPeriod : Nat := 5 * 60 * 10 ^ 9

structure ProjectObservation where
  projectId : String
  modifiedAt : Option SystemTime
  backedUpAt : Option SystemTime
  backupDestinationReady : Bool
  backupBlocked : Bool

inductive AutomaticBackupReason where
  | savedAfterLastBackup
  | savedDuringPreviousBackup
  deriving DecidableEq

structure AutomaticBackupCandidate where
  projectId : String
  reason : AutomaticBackupReason
  qualifiedRevision : SystemTime
  deriving DecidableEq

structure AutomaticBackupScheduler where
  attemptedRevisions : StringMap SystemTime

namespace AutomaticBackupScheduler

def fromAttemptedRevisions (revisions : List (String × SystemTime)) : AutomaticBackupScheduler :=
  ⟨.collect revisions⟩

def recordBackupAttempt (scheduler : AutomaticBackupScheduler) (projectId : String) :
    Option SystemTime → AutomaticBackupScheduler
  | some modifiedAt => ⟨scheduler.attemptedRevisions.insert projectId modifiedAt⟩
  | none => scheduler

/-- One turn of the loop over the observations. -/
def judge (scheduler : AutomaticBackupScheduler) (now : SystemTime) (project : ProjectObservation) :
    Option AutomaticBackupCandidate :=
  if !project.backupDestinationReady || project.backupBlocked then none
  else
    match project.modifiedAt, project.backedUpAt with
    | some modifiedAt, some backedUpAt =>
      let attemptedRevision := scheduler.attemptedRevisions.get? project.projectId
      let alreadyAttempted : Bool := attemptedRevision = some modifiedAt
      let changedDuringAttempt := attemptedRevision.any (· ≠ modifiedAt)
      if alreadyAttempted || (decide (modifiedAt.val ≤ backedUpAt.val) && !changedDuringAttempt) then none
      else if (durationSince now modifiedAt).any (quietPeriod ≤ ·) then
        some
          { projectId := project.projectId
            reason :=
              if decide (modifiedAt.val ≤ backedUpAt.val) && changedDuringAttempt then
                .savedDuringPreviousBackup
              else .savedAfterLastBackup
            qualifiedRevision := modifiedAt }
      else none
    | _, _ => none

def poll (scheduler : AutomaticBackupScheduler) (now : SystemTime)
    (observations : List ProjectObservation) : List AutomaticBackupCandidate :=
  observations.filterMap (scheduler.judge now)

section Judge
variable {scheduler : AutomaticBackupScheduler} {now : SystemTime} {project : ProjectObservation}

theorem quiet_iff {revision : SystemTime} :
    (durationSince now revision).any (quietPeriod ≤ ·) = true ↔
      (quietPeriod : Int) ≤ now.val - revision.val := by
  rw [durationSince]
  split
  · simp only [Option.any_some, decide_eq_true_eq]
    omega
  · simp only [Option.any_none, Bool.false_eq_true, false_iff]
    omega

/-- What is selected is the latest revision, not attempted last, and quiet for long enough. -/
theorem judge_some {candidate : AutomaticBackupCandidate}
    (h : scheduler.judge now project = some candidate) :
    candidate.projectId = project.projectId ∧
      project.modifiedAt = some candidate.qualifiedRevision ∧
      scheduler.attemptedRevisions.get? project.projectId ≠ some candidate.qualifiedRevision ∧
      (quietPeriod : Int) ≤ now.val - candidate.qualifiedRevision.val := by
  rw [judge] at h
  split at h
  · cases h
  split at h
  · rename_i modifiedAt backedUpAt hmodified hbacked
    dsimp only at h
    split at h
    · cases h
    rename_i hnew
    split at h
    · rename_i hquiet
      cases h
      refine ⟨rfl, hmodified, ?_, quiet_iff.mp hquiet⟩
      intro hattempted
      exact hnew (by rw [hattempted]; simp)
    · cases h
  · cases h

/-- A revision other than the last attempted one is selected, whatever the last backup was. -/
theorem judge_changed {revision newest : SystemTime}
    (hready : project.backupDestinationReady = true) (hblocked : project.backupBlocked = false)
    (hmodified : project.modifiedAt = some revision) (hbacked : project.backedUpAt.isSome)
    (hlast : scheduler.attemptedRevisions.get? project.projectId = some newest)
    (hne : newest ≠ revision) (hquiet : (quietPeriod : Int) ≤ now.val - revision.val) :
    ∃ reason, scheduler.judge now project = some ⟨project.projectId, reason, revision⟩ := by
  obtain ⟨backedUpAt, hbacked⟩ := Option.isSome_iff_exists.mp hbacked
  have hnew : ¬ (decide (some newest = some revision) ||
      (decide (revision.val ≤ backedUpAt.val) && !(some newest).any (· ≠ revision))) = true := by
    simp [hne]
  rw [judge, if_neg (by simp [hready, hblocked]), hmodified, hbacked]
  dsimp only
  rw [hlast, if_neg hnew, if_pos (quiet_iff.mpr hquiet)]
  exact ⟨_, rfl⟩

/-- Without an attempt, a revision newer than the last backup is selected. -/
theorem judge_unattempted {revision backedUpAt : SystemTime}
    (hready : project.backupDestinationReady = true) (hblocked : project.backupBlocked = false)
    (hmodified : project.modifiedAt = some revision) (hbacked : project.backedUpAt = some backedUpAt)
    (hlast : scheduler.attemptedRevisions.get? project.projectId = none)
    (hlt : backedUpAt < revision) (hquiet : (quietPeriod : Int) ≤ now.val - revision.val) :
    ∃ reason, scheduler.judge now project = some ⟨project.projectId, reason, revision⟩ := by
  have hnew : ¬ (decide ((none : Option SystemTime) = some revision) ||
      (decide (revision.val ≤ backedUpAt.val) && !(none : Option SystemTime).any (· ≠ revision))) = true := by
    simpa using hlt
  rw [judge, if_neg (by simp [hready, hblocked]), hmodified, hbacked]
  dsimp only
  rw [hlast, if_neg hnew, if_pos (quiet_iff.mpr hquiet)]
  exact ⟨_, rfl⟩

end Judge

end AutomaticBackupScheduler

/-- The part of the state file that keeps the attempts. -/
structure AppState where
  backupAttempts : StringMap FileRevision

namespace AppState

def recordBackupAttempt (state : AppState) (projectId : String) (modifiedAt : Option SystemTime) :
    AppState :=
  match modifiedAt.bind FileRevision.fromSystemTime with
  | none => state
  | some revision => ⟨state.backupAttempts.insert projectId revision⟩

def attempts (state : AppState) : List (String × SystemTime) :=
  state.backupAttempts.val.filterMap fun entry =>
    (FileRevision.toSystemTime entry.2).map fun time => (entry.1, time)

end AppState

end AuruPm.AutomaticBackup
