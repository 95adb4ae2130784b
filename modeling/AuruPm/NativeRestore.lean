import AuruPm.AssetPlan
import AuruPm.JsonEdit
import AuruPm.ProjectSource
import AuruPm.RestoreTarget

/-!
# Restoring a native project

Each sample that the clips reference is written under a name made of its hash and the last part of
its recorded path, into an empty folder, and the clips are pointed to it. What is restored is then
planned again as it would be for a backup.
-/

namespace AuruPm

set_option autoImplicit false

open SortedAssoc

namespace Restore

/-- The files of a folder that was empty, the last one first. -/
abbrev Folder (Bytes : Type) := List (HostPath × Bytes)

/-! Names. -/

/-- `Path::extension` -/
def pathExtension (path : HostPath) : Option String :=
  ((HostPath.fileName path).bind OsName.toStr).bind fun name => (HostPath.splitName name).2

def safeNativeAssetFileName (recordedPath : String) (hash : ContentHash) : String :=
  let rawName := ((segments isAnySlash recordedPath).reverse.find? (· ≠ "")).getD "sample"
  let path := HostPath.ofText rawName
  let stem := safeFileComponent ((HostPath.fileStem path).getD "sample") "sample" 120
  let extension := ((pathExtension path).map fun extension => safeFileComponent extension "" 24).filter
    (· ≠ "")
  let hash := (FlStudio.stripPrefix "blake3:" (hashDisplay hash)).getD (hashDisplay hash)
  match extension with
  | some extension => hash ++ "-" ++ stem ++ "." ++ extension
  | none => hash ++ "-" ++ stem

def samplePath (entry : SampleEntry ContentHash) : String :=
  "Samples/" ++ safeNativeAssetFileName entry.path entry.hash

/-! Files. -/

section Files
variable {Bytes : Type}

/-- `write_verified_new` -/
def writeVerifiedNew (path : HostPath) (bytes : Bytes) (folder : Folder Bytes) :
    Except String (Folder Bytes) :=
  if path ∈ folder.map Prod.fst then
    .error ("create " ++ path.display ++ ": File exists (os error 17)")
  else .ok ((path, bytes) :: folder)

/-- `ProjectFormat::from_path` -/
def projectFormatOfPath (path : HostPath) : Option ProjectFormat :=
  (pathExtension path).bind fun ext =>
    if eqIgnoreAsciiCase ext "auru" then some .auru
    else if eqIgnoreAsciiCase ext "dawproject" then some .dawproject
    else if eqIgnoreAsciiCase ext "als" then some .abletonLiveSet
    else if eqIgnoreAsciiCase ext "flp" then some .flStudio
    else if eqIgnoreAsciiCase ext "bwproject" then some .bitwigProject
    else none

end Files

/-! Clips. -/

/-- The text at `/data/Audio/file_path` of each clip changed. -/
def mapClipPaths (f : String → String) : Value → Value :=
  Value.mapAt "channels" <| Value.mapElems <| Value.mapAt "clips" <| Value.mapElems <|
    Value.mapAt "data" <| Value.mapAt "Audio" <| Value.mapAt "file_path" <| Value.mapText f

def rewriteNativeSamplePaths (restored : List (String × String)) : Value → Value :=
  mapClipPaths fun path => (get? restored path).getD path

/-! The restore. -/

structure RestoreResult where
  projectFile : HostPath
  filesWritten : Nat
  unavailable : Nat
  verifiedFiles : Nat
  previousCopy : Option HostPath

section Restore
variable {Bytes : Type} (F : Formats Bytes ContentHash) (C : Codecs Bytes ContentHash)
variable (R : SourceCodecs Bytes) (getBlob : ContentHash → Except String Bytes)

def restoreSnapshotToPath (snapshot : ProjectSnapshot Bytes) (path : HostPath)
    (folder : Folder Bytes) : Except String (Folder Bytes) :=
  match projectFormatOfPath path with
  | some format =>
    if format ≠ snapshot.format then
      projectFormatError ("cannot restore " ++ snapshot.format.display ++ " snapshot to '" ++
        path.display ++ "'; expected ." ++ extension snapshot.format)
    else do
      let bytes ← snapshot.restoreBytes F C
      writeVerifiedNew path bytes folder
  | none => do
    let bytes ← snapshot.restoreBytes F C
    writeVerifiedNew path bytes folder

/-- The loop over the manifest, with the files and the paths so far. -/
def restoreSamples (root : HostPath) (referenced : List String) :
    List (SampleEntry ContentHash) → Folder Bytes → List (String × String) →
      Except String (Folder Bytes × List (String × String))
  | [], folder, restored => .ok (folder, restored)
  | entry :: rest, folder, restored =>
    if entry.path ∉ referenced then restoreSamples root referenced rest folder restored
    else
      match getBlob entry.hash with
      | .error _ => restoreSamples root referenced rest folder restored
      | .ok bytes => do
        let target := root.join (HostPath.ofText (samplePath entry))
        let folder ← (writeVerifiedNew target bytes folder).mapError fun e =>
          "restore sample " ++ entry.path ++ ": " ++ e
        restoreSamples root referenced rest folder
          (SortedAssoc.insert entry.path (samplePath entry) restored)

def restoreAuru (samples : ContentHash) (snapshot : ProjectSnapshot Bytes) (root : HostPath)
    (fileName : String) : Except String (RestoreResult × Folder Bytes) := do
  let manifestBytes ← (getBlob samples).mapError ("fetch sample list: " ++ ·)
  let manifest ← (F.decodeManifest manifestBytes).mapError ("read sample list: " ++ ·)
  let project ← (F.decodeValue snapshot.canonicalBytes).mapError ("read native project: " ++ ·)
  let referenced := samplePathsInSnapshot project
  let (folder, restoredPaths) ← restoreSamples getBlob root referenced manifest.entries [] []
  let project := rewriteNativeSamplePaths restoredPaths project
  let encoded := F.encodeValue project
  let restoredSnapshot ← (ProjectSnapshot.fromSourceBytes F C R (fun v => .ok (F.encodeValue v)) .auru
    encoded).mapError ("rebuild native project: " ++ ·)
  let projectFile := root.join (HostPath.ofText fileName)
  let folder ← (restoreSnapshotToPath F C restoredSnapshot projectFile folder).mapError
    ("restore project: " ++ ·)
  return (⟨projectFile, restoredPaths.length, referenced.length - restoredPaths.length, 0, none⟩, folder)

end Restore

end Restore

end AuruPm
