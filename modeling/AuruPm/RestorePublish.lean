import AuruPm.Lib.FileTree
import AuruPm.Lib.Rely
import AuruPm.RestoreTarget
import Mathlib.Data.List.Range

/-!
# Publishing a restore

A restore is built beside its folder and renamed into it. What stood there is moved aside first,
and is put back where a later step fails. The steps are those of `publish_verified_restore`; each
may fail, and the program may be stopped after any of them.
-/

namespace AuruPm

set_option autoImplicit false

open FileTree Threads

namespace Restore

abbrev Bytes := List UInt8

/-- The restore folder and the names beside it. -/
inductive Place where
  | finalRoot
  | staging
  | quarantine (copy : Nat)
  deriving DecidableEq

/-- What stands in each place. The files hashed so far and the failures are kept for the record. -/
structure Site where
  places : Place → Option (DirTree Bytes)
  hashed : List (Place × List String × ContentHash)
  failures : Nat

inductive TreeOp where
  | pathExists (place : Place) (path : List String)
  | isDir (place : Place) (path : List String)
  | rename (source target : Place)
  | readDir (place : Place) (path : List String)
  | nextEntry (place : Place) (path : List String)
  | symlinkMetadata (place : Place) (path : List String)
  | createDir (place : Place) (path : List String)
  | copy (source target : Place) (path : List String)
  | hashFile (place : Place) (path : List String)
  | removeDirAll (place : Place)
  | removeFile (place : Place)

/-- A folder is read with all that is below it. -/
abbrev TreeOp.Answer : TreeOp → Type
  | .pathExists _ _ => Bool
  | .isDir _ _ => Bool
  | .readDir _ _ => List (String × DirTree Bytes)
  | .symlinkMetadata _ _ => Kind
  | .hashFile _ _ => ContentHash
  | _ => Unit

namespace Site

def find (s : Site) (place : Place) (path : List String) : Option (DirTree Bytes) :=
  treeAt path (s.places place)

def set (s : Site) (place : Place) (t : Option (DirTree Bytes)) : Site :=
  { s with places := Function.update s.places place t }

def fail (s : Site) : Site := { s with failures := s.failures + 1 }

def write (s : Site) (place : Place) (path : List String) (new : DirTree Bytes) : Option Site :=
  (writeAt new path (s.places place)).map fun t => s.set place (some t)

@[simp] theorem set_self (s : Site) (place : Place) (t : Option (DirTree Bytes)) :
    (s.set place t).places place = t :=
  Function.update_self ..

theorem set_ne {s : Site} {place other : Place} {t : Option (DirTree Bytes)} (h : other ≠ place) :
    (s.set place t).places other = s.places other :=
  Function.update_of_ne h ..

theorem find_set (s : Site) (place : Place) (t : Option (DirTree Bytes)) (path : List String) :
    (s.set place t).find place path = treeAt path t := by
  rw [find, set_self]

theorem find_set_ne {s : Site} {place other : Place} {t : Option (DirTree Bytes)} (h : other ≠ place)
    (path : List String) : (s.set place t).find other path = s.find other path := by
  rw [find, set_ne h, find]

end Site

section Program
variable (hashOf : Bytes → ContentHash)

/-- What a step does where it can be done. -/
def effect (s : Site) : (op : TreeOp) → Option (op.Answer × Site)
  | .pathExists place path => some ((s.find place path).any fun t => decide (¬ t.Dangling), s)
  | .isDir place path => some (((s.find place path).bind DirTree.listed).isSome, s)
  | .rename source target =>
    (s.places source).bind fun t =>
      if t.replaces (s.places target) then some ((), (s.set source none).set target (some t)) else none
  | .readDir place path => ((s.find place path).bind DirTree.listed).map fun entries => (entries, s)
  | .nextEntry _ _ => some ((), s)
  | .symlinkMetadata place path => (s.find place path).map fun t => (t.kind, s)
  | .createDir place path =>
    if (s.find place path).isNone then (s.write place path (.folder [])).map fun s' => ((), s') else none
  | .copy source target path =>
    ((s.find source path).bind DirTree.contents).bind fun bytes =>
      if (s.find target path).all fun t => t.kind = .file then
        (s.write target path (.file bytes)).map fun s' => ((), s')
      else none
  | .hashFile place path =>
    ((s.find place path).bind DirTree.contents).map fun bytes =>
      (hashOf bytes, { s with hashed := (place, path, hashOf bytes) :: s.hashed })
  | .removeDirAll place =>
    (s.places place).bind fun t => if t.kind = .folder then some ((), s.set place none) else none
  | .removeFile place =>
    (s.places place).bind fun t => if t.kind ≠ .folder then some ((), s.set place none) else none

/-- A step is done or fails. A copy that fails may leave a part of the file. -/
inductive Step : Site → (op : TreeOp) → Except String op.Answer → Site → Prop
  | ok {s s' : Site} {op : TreeOp} {a : op.Answer} (h : effect hashOf s op = some (a, s')) :
      Step s op (.ok a) s'
  | failed (s : Site) (op : TreeOp) (error : String) : Step s op (.error error) s.fail
  | torn {s s' : Site} {source target : Place} {path : List String} {bytes : Bytes}
      (h : s.write target path (.file bytes) = some s') (error : String) :
      Step s (.copy source target path) (.error error) s'.fail

/-- What the restore fails with, and whether that is its refusal to merge a link. -/
structure RestoreError where
  text : String
  refused : Bool

abbrev RestoreProg := Prog TreeOp TreeOp.Answer String RestoreError

/-- A step whose failure ends the call. -/
def step (op : TreeOp) (context : String) : RestoreProg op.Answer :=
  Prog.run op fun error => ⟨context ++ ": " ++ error, false⟩

/-- `Path::exists` -/
def pathExists (place : Place) (path : List String) : RestoreProg Bool := do
  match ← Prog.attempt (.pathExists place path) with
  | .ok there => return there
  | .error _ => return false

/-- `Path::is_dir` -/
def isDir (place : Place) (path : List String) : RestoreProg Bool := do
  match ← Prog.attempt (.isDir place path) with
  | .ok folder => return folder
  | .error _ => return false

variable (display : Place → List String → String)

mutual
/-- `visit`, over entries that are sorted. -/
def visitTree (path : List String) : DirTree Bytes → Except String (List (List String × ContentHash))
  | .file bytes => .ok [(path, hashOf bytes)]
  | .folder entries => visitEntries path entries
  | .special => .ok []
  | .link _ => .error ("refusing a symlink in staged restore: " ++ display .staging path)
  | .danglingLink => .error ("refusing a symlink in staged restore: " ++ display .staging path)
def visitEntries (path : List String) :
    List (String × DirTree Bytes) → Except String (List (List String × ContentHash))
  | [] => .ok []
  | (name, t) :: rest => do
    let first ← visitTree (path ++ [name]) t
    let others ← visitEntries path rest
    .ok (first ++ others)
end

def hashRestoreTree (entries : List (String × DirTree Bytes)) :
    Except String (List (List String × ContentHash)) :=
  visitEntries hashOf display [] entries

def verifyRestoreTree (place : Place) : List (List String × ContentHash) → RestoreProg Unit
  | [] => return ()
  | (relative, expected) :: rest => do
    let actual ← step (.hashFile place relative) ("verify restored file " ++ display place relative)
    if actual = expected then verifyRestoreTree place rest
    else .fail ⟨"restored file " ++ display place relative ++
      " failed BLAKE3 verification: expected " ++ hashDisplay expected ++ ", read " ++
      hashDisplay actual, false⟩

/-- The part of `copy_missing_entries` for a file that the destination has not. -/
def preserveFile (source destination : Place) (path : List String) : RestoreProg Unit := do
  step (.copy source destination path) "preserve existing file"
  let expected ← step (.hashFile source path) "hash existing file"
  let actual ← step (.hashFile destination path) "verify preserved file"
  if actual = expected then return ()
  else .fail ⟨"preserved file " ++ display destination path ++ " failed BLAKE3 verification", false⟩

/-- One turn of the loop of `copy_missing_entries`, with the call for the folder below. -/
def copyMissingEntry (source destination : Place) (path : List String) (below : RestoreProg Unit) :
    RestoreProg Unit := do
  step (.nextEntry source path) "read existing project entry"
  let metadata ← step (.symlinkMetadata source path) "inspect existing project entry"
  if ← pathExists destination path then
    if metadata = .folder then
      if ← isDir destination path then below else return ()
    else return ()
  else
    match metadata with
    | .link => .fail ⟨"cannot safely merge symlink " ++ display source path ++
        "; choose Keep both or Delete and replace instead", true⟩
    | .folder => do
      step (.createDir destination path) "preserve existing folder"
      below
    | .file => preserveFile display source destination path
    | .special => return ()

mutual
/-- The recursive call, on what was listed. -/
def copyMissingTree (source destination : Place) (path : List String) : DirTree Bytes → RestoreProg Unit
  | .folder entries => do
    let _ ← step (.readDir source path) "read existing project"
    copyMissingEntries source destination path entries
  | _ => do
    let _ ← step (.readDir source path) "read existing project"
    return ()
def copyMissingEntries (source destination : Place) (path : List String) :
    List (String × DirTree Bytes) → RestoreProg Unit
  | [] => return ()
  | (name, t) :: rest => do
    copyMissingEntry display source destination (path ++ [name])
      (copyMissingTree source destination (path ++ [name]) t)
    copyMissingEntries source destination path rest
end

/-- `copy_missing_entries` -/
def copyMissing (source destination : Place) : RestoreProg Unit := do
  let entries ← step (.readDir source []) "read existing project"
  copyMissingEntries display source destination [] entries

def rollbackReplacement (quarantine : Place) : RestoreProg Unit := do
  step (.rename .finalRoot .staging) "move failed restore aside"
  step (.rename quarantine .finalRoot) "put existing project back"

/-- The result is not looked at. -/
def removePath (place : Place) : RestoreProg Unit := do
  let metadata ← step (.symlinkMetadata place []) "inspect"
  if metadata = .folder then step (.removeDirAll place) "remove"
  else step (.removeFile place) "remove"

/-- `unique_quarantine_path`, over these copy numbers. -/
def uniqueQuarantine : List Nat → RestoreProg Nat
  | [] => .fail ⟨"the quarantine copy number cannot be exhausted", false⟩
  | copy :: copies => do
    if ← pathExists (.quarantine copy) [] then uniqueQuarantine copies else return copy

inductive RestoreCollisionChoice where
  | abortIfExists
  | duplicate
  | overwrite
  | deleteAndReplace
  deriving DecidableEq

def copyNumbers : List Nat := List.range' 1 (2 ^ 32 - 1)

/-- The merge where it is asked for, and the verification. -/
def completeInstall (expected : List (List String × ContentHash)) (collision : RestoreCollisionChoice)
    (quarantine : Place) : RestoreProg Unit :=
  if collision = .overwrite then do
    copyMissing display quarantine .finalRoot
    verifyRestoreTree display .finalRoot expected
  else verifyRestoreTree display .finalRoot expected

/-- The part of `publish_verified_restore` once the restore is renamed into its folder. -/
def settle (expected : List (List String × ContentHash)) (collision : RestoreCollisionChoice)
    (quarantine : Place) : RestoreProg (Option Place) := do
  match ← (completeInstall display expected collision quarantine).outcome with
  | .error error =>
    match ← (rollbackReplacement quarantine).outcome with
    | .ok () => .fail ⟨error.text ++ "; the existing project was restored unchanged", error.refused⟩
    | .error rollback =>
      .fail ⟨error.text ++ "; automatic rollback also failed: " ++ rollback.text ++
        ". The previous copy remains at " ++ display quarantine [], error.refused⟩
  | .ok () =>
    match ← (removePath quarantine).outcome with
    | .ok () => return none
    | .error _ => return some quarantine

/-- The part of `publish_verified_restore` where something stands in the folder. -/
def replaceExisting (expected : List (List String × ContentHash)) (collision : RestoreCollisionChoice) :
    RestoreProg (Option Place) := do
  let copy ← uniqueQuarantine copyNumbers
  step (.rename .finalRoot (.quarantine copy)) "protect existing project before replacement"
  match ← (step (.rename .staging .finalRoot) "install verified restore").outcome with
  | .error error =>
    let _ ← Prog.attempt (.rename (.quarantine copy) .finalRoot)
    .fail error
  | .ok () => settle display expected collision (.quarantine copy)

/-- The part of `publish_verified_restore` where nothing was seen in the folder. -/
def publishNew (expected : List (List String × ContentHash)) : RestoreProg (Option Place) := do
  step (.rename .staging .finalRoot) "publish verified restore"
  match ← (verifyRestoreTree display .finalRoot expected).outcome with
  | .error error =>
    let _ ← Prog.attempt (.rename .finalRoot .staging)
    .fail error
  | .ok () => return none

/-- The answer is where the previous copy remains, if anywhere. -/
def publishVerifiedRestore (expected : List (List String × ContentHash))
    (collision : RestoreCollisionChoice) : RestoreProg (Option Place) := do
  if ← pathExists .finalRoot [] then
    if collision = .abortIfExists ∨ collision = .duplicate then
      .fail ⟨display .finalRoot [] ++
        " appeared while the restore was being verified; nothing was overwritten", false⟩
    else replaceExisting display expected collision
  else publishNew display expected

end Program

/-- The staged folder, what stands in the restore folder, and earlier leftovers beside them. -/
def Site.before (staged : List (String × DirTree Bytes)) (previous : Option (DirTree Bytes))
    (leftovers : Nat → Option (DirTree Bytes)) : Site where
  places
    | .finalRoot => previous
    | .staging => some (.folder staged)
    | .quarantine copy => leftovers copy
  hashed := []
  failures := 0

end Restore

end AuruPm
