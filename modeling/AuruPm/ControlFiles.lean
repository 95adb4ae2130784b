import AuruPm.Lib.Rely

/-!
# Replacing a control file

`HEAD` and `HISTORY_FLOOR` are written beside their place and renamed into it. Where a rename does
not replace, the last value is moved aside first, and a reader falls back to it. The steps are
those of `replace_control_file` and `read_control_file_with`, on the three files that they name.
-/

namespace AuruPm

set_option autoImplicit false

open Threads

namespace Control

/-- The file itself, the one it is written to, and the one it is moved aside to. -/
inductive Role where
  | primary
  | tmp
  | backup
  deriving DecidableEq

structure Disk where
  primary : Option String
  tmp : Option String
  backup : Option String
  deriving DecidableEq

namespace Disk

def get (d : Disk) : Role → Option String
  | .primary => d.primary
  | .tmp => d.tmp
  | .backup => d.backup

def set (d : Disk) (role : Role) (contents : Option String) : Disk :=
  match role with
  | .primary => { d with primary := contents }
  | .tmp => { d with tmp := contents }
  | .backup => { d with backup := contents }

/-- What the control file says while nobody writes it. -/
def value (d : Disk) : Option String := d.primary.or d.backup

end Disk

inductive FileOp where
  | write (role : Role) (body : String)
  | rename (source target : Role)
  | remove (role : Role)
  | fileExists (role : Role)
  | read (role : Role)

abbrev FileOp.Answer : FileOp → Type
  | .write _ _ => Unit
  | .rename _ _ => Unit
  | .remove _ => Unit
  | .fileExists _ => Bool
  | .read _ => String

inductive IoError where
  | notFound
  | alreadyExists
  deriving DecidableEq

/-- Whether a rename onto a file that exists replaces it or fails. -/
inductive Renaming where
  | replaces
  | refuses
  deriving DecidableEq

def perform (mode : Renaming) (d : Disk) : (op : FileOp) → Except IoError op.Answer × Disk
  | .write role body => (.ok (), d.set role (some body))
  | .rename source target =>
    match d.get source with
    | none => (.error .notFound, d)
    | some contents =>
      if mode = .refuses ∧ (d.get target).isSome = true then (.error .alreadyExists, d)
      else (.ok (), (d.set source none).set target (some contents))
  | .remove role =>
    match d.get role with
    | none => (.error .notFound, d)
    | some _ => (.ok (), d.set role none)
  | .fileExists role => (.ok (d.get role).isSome, d)
  | .read role =>
    match d.get role with
    | none => (.error .notFound, d)
    | some contents => (.ok contents, d)

/-- One step of a program. -/
abbrev Step (mode : Renaming) (d : Disk) (op : FileOp) (r : Except IoError op.Answer)
    (d' : Disk) : Prop :=
  perform mode d op = (r, d')

abbrev FileProg := Prog FileOp FileOp.Answer IoError IoError

/-- A step whose failure ends the call. -/
def must (op : FileOp) : FileProg op.Answer := Prog.run op id

/-- A step whose failure is looked at. -/
def attempt (op : FileOp) : FileProg (Except IoError op.Answer) := Prog.attempt op

/-- `read_control_file_with` -/
def readControlFile : FileProg (Option String) := do
  match ← attempt (.read .primary) with
  | .ok value => return some value
  | .error .notFound =>
    match ← attempt (.read .backup) with
    | .ok value => return some value
    | .error .notFound =>
      match ← attempt (.read .primary) with
      | .ok value => return some value
      | .error .notFound => return none
      | .error error => .fail error
    | .error error => .fail error
  | .error error => .fail error

def replaceControlFile (body : String) : FileProg Unit := do
  must (.write .tmp body)
  match ← attempt (.rename .tmp .primary) with
  | .ok () =>
    let _ ← attempt (.remove .backup)
    return ()
  | .error error =>
    let present ← must (.fileExists .primary)
    if present then
      let _ ← attempt (.remove .backup)
      match ← attempt (.rename .primary .backup) with
      | .error moveError =>
        let _ ← attempt (.remove .tmp)
        .fail moveError
      | .ok () =>
        match ← attempt (.rename .tmp .primary) with
        | .ok () =>
          let _ ← attempt (.remove .backup)
          return ()
        | .error replaceError =>
          let _ ← attempt (.rename .backup .primary)
          let _ ← attempt (.remove .tmp)
          .fail replaceError
    else
      let _ ← attempt (.remove .tmp)
      .fail error

/-! What the calls of a replacement do. -/

/-- The value stays there, and the backup is kept, dropped or taken from the primary. -/
def Gentle (mode : Renaming) (d : Disk) (op : FileOp) : Prop :=
  (d.value.isSome = true → (perform mode d op).2.value.isSome = true) ∧
    ((perform mode d op).2.backup = d.backup ∨ (perform mode d op).2.backup = none ∨
      (perform mode d op).2.backup = d.primary)

/-- A replacement shows the old value or the new one before each of its steps, and the new one
when it succeeds. -/
theorem replace_meets (mode : Renaming) (body : String) (d : Disk) :
    Meets Eq (Step mode)
      (fun d' op => (d'.value = d.value ∨ d'.value = some body) ∧ Gentle mode d' op)
      (fun r d' => (d'.value = d.value ∨ d'.value = some body) ∧
        (r = .ok () → d'.value = some body))
      (replaceControlFile body) d := by
  unfold replaceControlFile
  rcases d with ⟨primary, tmp, backup⟩
  cases mode with
  | replaces =>
    cases primary <;> cases backup <;>
      simp [must, attempt, Prog.run, Prog.attempt, meets_call_iff, perform, Disk.get, Disk.set,
        Gentle, Disk.value, Meets]
  | refuses =>
    -- Without a primary the first rename goes through, with one the value is moved aside.
    cases primary with
    | none =>
      cases backup <;>
        simp [must, attempt, Prog.run, Prog.attempt, meets_call_iff, perform, Disk.get, Disk.set,
          Gentle, Disk.value, Meets]
    | some old =>
      cases backup <;>
        simp [must, attempt, Prog.run, Prog.attempt, meets_call_iff, perform, Disk.get, Disk.set,
          Gentle, Disk.value, Meets]

/-! Stopped replacements. -/

/-- Nobody writing, a reader gets the value. -/
theorem read_runs_iff {mode : Renaming} {d d' : Disk} {r : Except IoError (Option String)} :
    Runs (Step mode) d readControlFile d' r ↔ d' = d ∧ r = .ok d.value := by
  have hmeets : Meets Eq (Step mode) (fun _ _ => True) (fun r d' => d' = d ∧ r = .ok d.value)
      readControlFile d := by
    unfold readControlFile
    rcases d with ⟨primary, tmp, backup⟩
    cases primary <;> cases backup <;>
      simp [attempt, Prog.attempt, meets_call_iff, perform, Disk.get, Disk.value, Meets]
  constructor
  · intro h
    exact hmeets.run h
  · intro ⟨hd, hr⟩
    obtain ⟨d'', r', h⟩ := exists_run (perform mode) readControlFile d
    obtain ⟨rfl, rfl⟩ := hmeets.run h
    rw [hd, hr]
    exact h

/-- A control file through completed replacements and ones that were stopped after any of their
steps and started again: what was last completely written, and what is being written. -/
inductive Life (mode : Renaming) : (last pending : Option String) → Disk → Prop
  | start (d : Disk) : Life mode d.value none d
  | written {last pending : Option String} {d d' : Disk} {body : String}
      (h : Life mode last pending d)
      (hr : Runs (Step mode) d (replaceControlFile body) d' (.ok ())) :
      Life mode (some body) none d'
  | stopped {last pending : Option String} {d d' : Disk} {body : String}
      (h : Life mode last pending d) (hsame : ∀ other, pending = some other → other = body)
      (hs : Stops (Step mode) d (replaceControlFile body) d') : Life mode last (some body) d'

theorem Life.value {mode : Renaming} {last pending : Option String} {d : Disk}
    (h : Life mode last pending d) :
    d.value = last ∨ (pending.isSome = true ∧ d.value = pending) := by
  induction h with
  | start d => exact Or.inl rfl
  | @written last pending d d' body _ hr _ =>
    exact Or.inl (((replace_meets mode body d).run hr).2 rfl)
  | @stopped last pending d d' body _ hsame hs ih =>
    rcases (replace_meets mode body d).stops (fun _ _ hmay => hmay.1) (fun _ _ hpost => hpost.1) hs
      with h | h
    · rw [h]
      rcases ih with ih | ⟨hsome, ih⟩
      · exact Or.inl ih
      · obtain ⟨other, hother⟩ := Option.isSome_iff_exists.mp hsome
        rw [ih, hother, hsame other hother]
        exact Or.inr ⟨rfl, rfl⟩
    · exact Or.inr ⟨rfl, h⟩

/-- However often a replacement is stopped and started again, a reader gets the value last
completely written or the one being written, and no file that existed is reported absent. -/
theorem control_file_survives {mode : Renaming} {last pending : Option String} {d : Disk}
    (h : Life mode last pending d) :
    ∃ value, (∀ d' r, Runs (Step mode) d readControlFile d' r ↔ d' = d ∧ r = .ok value) ∧
      (value = last ∨ (pending.isSome = true ∧ value = pending)) ∧
      (last.isSome = true → value.isSome = true) := by
  refine ⟨d.value, fun d' r => read_runs_iff, h.value, fun hlast => ?_⟩
  rcases h.value with hvalue | ⟨hsome, hvalue⟩
  · rw [hvalue]
    exact hlast
  · rw [hvalue]
    exact hsome

/-- A replacement of a head that is stopped once the old value is aside. -/
theorem moved_aside_survives : ∃ value, (∀ d' r, Runs (Step .refuses)
      ⟨none, some "new", some "old"⟩ readControlFile d' r ↔
        d' = ⟨none, some "new", some "old"⟩ ∧ r = .ok value) ∧
    (value = some "old" ∨ ((some "new").isSome = true ∧ value = some "new")) ∧
    ((some "old").isSome = true → value.isSome = true) :=
  control_file_survives ((Life.start ⟨some "old", none, none⟩).stopped (fun _ h => nomatch h)
    (.call rfl (.call rfl (.call rfl (.call rfl (.call rfl (.here _ _)))))))

end Control

end AuruPm
