import AuruPm.FileRefs
import Mathlib.Algebra.GroupWithZero.Nat
import Mathlib.Data.List.Sort

/-!
# Ableton project folders

`ableton/bundle.rs` and the path aliases: which folder is a project, which of its files a commit
captures, and which file a recorded path leads to.
-/

namespace AuruPm

set_option autoImplicit false

namespace Ableton

/-! Path aliases. -/

/-- A text is cut inside a character. -/
inductive Panic where
  | charBoundary
  deriving DecidableEq

/-- A prefix recorded on another machine, and the local folder it stands for. -/
structure PathAlias where
  fromPrefix : String
  toFolder : HostPath

/-- What comes before and after so many bytes, unless that is inside a character. -/
def splitBytes : Nat → List Char → Option (List Char × List Char)
  | 0, text => some ([], text)
  | _ + 1, [] => none
  | n + 1, c :: rest =>
    if c.utf8Size ≤ n + 1 then (splitBytes (n + 1 - c.utf8Size) rest).map fun (a, b) => (c :: a, b)
    else none

def byteLength (text : List Char) : Nat := (text.map Char.utf8Size).sum

/-- `PathAlias::apply` -/
def PathAlias.apply (a : PathAlias) (path : String) : Except Panic (Option HostPath) :=
  let fromPrefix := (a.fromPrefix.toList.reverse.dropWhile isAnySlash).reverse
  if byteLength path.toList < byteLength fromPrefix then .ok none
  else
    match splitBytes (byteLength fromPrefix) path.toList with
    | none => .error .charBoundary
    | some (start, rest) =>
      if start.map Char.toLower ≠ fromPrefix.map Char.toLower then .ok none
      else
        .ok (some (a.toFolder.join
          (HostPath.ofRecorded (String.ofList (rest.dropWhile isAnySlash)))))

/-! Folders. -/

structure BundlePolicy where
  includeBackups : Bool := false
  includeAnalysisFiles : Bool := true
  includeProjectInfo : Bool := true
  vendorExternalAssets : Bool := true
  vendorUserLibrary : Bool := true
  maxAssetBytes : Nat := 2 * 1024 * 1024 * 1024
  pathAliases : List PathAlias := []

structure AbletonBundle where
  root : HostPath
  liveSet : HostPath
  deriving DecidableEq

def projectInfoDir : String := "Ableton Project Info"

def importedDir : String := "Samples/Imported"

def backupDir : String := "Backup"

def alwaysExcludedSuffixes : List String := ["-pm.json", "-pm.json.tmp", ".tmp"]

/-- The companion file that macOS leaves beside a file. -/
def isAppleDouble (path : HostPath) : Bool :=
  match path.fileName.bind OsName.toStr with
  | some name => "._".toList.isPrefixOf name.toList
  | none => false

def isLiveSet (path : HostPath) : Bool := !isAppleDouble path && path.extensionIs "als"

/-- Paths of one folder, in the order of their names. -/
def sortByName (paths : List HostPath) : List HostPath :=
  paths.insertionSort fun a b =>
    (a.fileName.map OsName.bytes).getD [] ≤ (b.fileName.map OsName.bytes).getD []

/-- Which of several sets is the project's: one whose name starts the name of the folder. -/
def chooseLiveSetFrom (root : HostPath) (sets : List HostPath) : Except String HostPath :=
  match sets with
  | [] => projectFormatError ("'" ++ root.display ++ "' contains no Ableton Live Set")
  | [set] => .ok set
  | sets =>
    let folder := (root.fileName.bind OsName.toStr).getD ""
    let matching := sets.find? fun set => match set.fileStem with
      | some stem => stem.toList.isPrefixOf folder.toList
      | none => false
    match matching with
    | some set => .ok set
    | none => projectFormatError ("'" ++ root.display ++ "' contains " ++ toString sets.length ++
        " Live Sets and none matches the folder name; open the .als directly to choose one")

section Detect
variable {Bytes : Type} (m : Machine Bytes)

/-- An entry that cannot be read is passed over. -/
def fromRoot (root : HostPath) : Except String (Option AbletonBundle) := do
  let listing ← m.readDir root
  let entries := listing.names.map root.child
  let hasProjectInfo := entries.any fun path =>
    path.fileName = some (.text projectInfoDir) && m.isDir path
  let liveSets := sortByName (entries.filter fun path => m.isFile path && isLiveSet path)
  if !hasProjectInfo && liveSets.length ≠ 1 then return none
  else
    let liveSet ← chooseLiveSetFrom root liveSets
    return some ⟨root, liveSet⟩

/-- The first entry that cannot be read ends the search. -/
def topLevelLiveSets (dir : HostPath) : Listing → Except String (List HostPath)
  | .done => .ok []
  | .broken e _ => .error e
  | .entry name _ rest => do
    let sets ← topLevelLiveSets dir rest
    let path := dir.child name
    return if m.isFile path && isLiveSet path then path :: sets else sets

def looksLikeProjectRoot (dir : HostPath) : Bool :=
  if m.isDir (dir.child (.text projectInfoDir)) then true
  else
    match m.readDir dir with
    | .error _ => false
    | .ok listing =>
      match topLevelLiveSets m dir listing with
      | .ok sets => sets.length = 1
      | .error _ => false

/-- The project folder that a path, or the set at that path, belongs to. -/
def AbletonBundle.detect (path : HostPath) : Except String (Option AbletonBundle) :=
  if m.isDir path then fromRoot m path
  else if !isLiveSet path then .ok none
  else
    match path.parent with
    | none => .ok none
    | some parent =>
      if !looksLikeProjectRoot m parent then .ok none else .ok (some ⟨parent, path⟩)

end Detect

/-! The files of a folder. -/

def startsWith (start text : String) : Bool := start.toList.isPrefixOf text.toList

/-- What a file in the folder is, or `none` when it is left out. -/
def classifyFile (relative : String) (policy : BundlePolicy) : Option AssetKind :=
  if alwaysExcludedSuffixes.any fun suffix => suffix.toList.isSuffixOf relative.toList then none
  else if eqIgnoreAsciiCase ((segments isSlash relative).headD "") backupDir then
    if policy.includeBackups then some .backup else none
  else
    let name := (segments isSlash relative).getLastD relative
    if startsWith projectInfoDir relative || eqIgnoreAsciiCase name "Desktop.ini" ||
        eqIgnoreAsciiCase name ".DS_Store" then
      if policy.includeProjectInfo then some .projectInfo else none
    else
      let extension := ((rsplitDot name.toList).map Prod.snd).getD []
      let extension := String.ofList (extension.map Char.toLower)
      if extension = "asd" then if policy.includeAnalysisFiles then some .analysis else none
      else if extension ∈ ["adg", "adv", "alp", "ams", "agr"] then some .preset
      else if extension ∈ ["wav", "aif", "aiff", "flac", "mp3", "ogg", "m4a"] then some .sample
      else some .other

/-- One file to commit from inside the folder. -/
structure BundleFile where
  relative : String
  source : HostPath
  size : Nat
  kind : AssetKind
  deriving DecidableEq

namespace AbletonBundle

def componentName : Component → Option String
  | .normal name => name.toStr
  | _ => none

/-- The path below the root, with `/` between its parts. -/
def relativePath (bundle : AbletonBundle) (path : HostPath) : Option String :=
  if !path.startsWith bundle.root then none
  else do
    let parts ← (path.drop bundle.root.length).mapM componentName
    if parts = [] then none else some ("/".intercalate parts)

def fileAt (bundle : AbletonBundle) (policy : BundlePolicy) (path : HostPath) (length : Nat) :
    Option BundleFile := do
  let relative ← bundle.relativePath path
  let kind ← classifyFile relative policy
  if path = bundle.liveSet ∨ policy.maxAssetBytes < length then none
  else some ⟨relative, path, length, kind⟩

mutual
def walkItem (bundle : AbletonBundle) (policy : BundlePolicy) (path : HostPath) :
    Item → Except String (List BundleFile)
  | .link => .ok []
  | .failing e => .error e
  | .folder listing => bundle.walk policy path listing
  | .file length => .ok (bundle.fileAt policy path length).toList
/-- Links are not followed: they can leave the folder. -/
def walk (bundle : AbletonBundle) (policy : BundlePolicy) (dir : HostPath) :
    Listing → Except String (List BundleFile)
  | .done => .ok []
  | .broken e _ => .error e
  | .entry name item rest => do
    let files ← bundle.walkItem policy (dir.child name) item
    let more ← bundle.walk policy dir rest
    return files ++ more
end

section Files
variable {Bytes : Type} (m : Machine Bytes)

/-- Every file of the folder to commit, the set itself aside. -/
def enumerate (bundle : AbletonBundle) (policy : BundlePolicy) :
    Except String (List BundleFile) := do
  let listing ← m.readDir bundle.root
  let files ← bundle.walk policy bundle.root listing
  return files.insertionSort fun a b => a.relative ≤ b.relative

/-- The first alias that leads to a file. -/
def resolveAlias (path : String) : List PathAlias → Except Panic (Option HostPath)
  | [] => .ok none
  | a :: rest => do
    match ← a.apply path with
    | none => resolveAlias path rest
    | some candidate =>
      if m.isFile candidate then return some candidate else resolveAlias path rest

/-- The file inside that a project-relative path leads to. -/
def resolveInside (bundle : AbletonBundle) (relative : String) : Option HostPath :=
  if relative ≠ "" ∧ hasWindowsDrive relative = false ∧ relative.toList.head? ≠ some '/' then
    let candidate := (bundle.root.join (.ofRecorded relative)).normalize
    if m.isFile candidate then some candidate else none
  else none

/-- The file that a reference leads to on this machine. -/
def resolve (bundle : AbletonBundle) (policy : BundlePolicy) (relative absolute : String) :
    Except Panic (Option HostPath) :=
  match bundle.resolveInside m relative with
  | some candidate => .ok (some candidate)
  | none =>
    if absolute = "" then .ok none
    else if !hasWindowsDrive absolute && m.isFile (.ofText absolute) then
      .ok (some (.ofText absolute))
    else resolveAlias m absolute policy.pathAliases

end Files

def contains (bundle : AbletonBundle) (path : HostPath) : Bool :=
  path.normalize.startsWith bundle.root.normalize

end AbletonBundle

end Ableton

end AuruPm
