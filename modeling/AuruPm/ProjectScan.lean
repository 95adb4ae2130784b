import AuruPm.ProjectFolder
import AuruPm.Lib.StableSort
import AuruPm.Lib.FoldUntil

/-!
# Scanning for projects

`discovery.rs`: one walk over the folders below a chosen one that finds project folders of Ableton
and project files of the other programs, with a limit on the depth, on the projects and on the
directories.
-/

namespace AuruPm.Discovery

set_option autoImplicit false

open Ableton (AbletonBundle projectInfoDir isLiveSet chooseLiveSetFrom)
open StableSort FoldUntil

/-! Directories. -/

inductive EntryKind where
  | file
  | folder
  | linkToFile
  | linkToFolder
  | other
  deriving DecidableEq

/-- `is_file`, which follows links. -/
def EntryKind.isFile (kind : EntryKind) : Bool := kind = .file || kind = .linkToFile

/-- `is_dir`, which follows links. -/
def EntryKind.isDir (kind : EntryKind) : Bool := kind = .folder || kind = .linkToFolder

/-- What the folders list, apart from those that cannot be read. -/
structure DirectoryTree where
  readDir : HostPath → Option (List (OsName × EntryKind))
  distinct : ∀ path listing, readDir path = some listing →
    (listing.map fun entry => entry.1.bytes).Nodup

/-- `Component`s compare by their kind, then by their bytes. -/
def componentKey : Component → List UInt8
  | .rootDir => [0]
  | .curDir => [1]
  | .parentDir => [2]
  | .normal name => 3 :: name.bytes

/-- `Path::cmp` -/
def comparePaths (left right : HostPath) : Ordering :=
  compare (left.map componentKey) (right.map componentKey)

/-! Projects. -/

inductive DiscoveredProject where
  | ableton (bundle : AbletonBundle)
  | standalone (projectFile : HostPath) (format : ProjectFormat)
  deriving DecidableEq

namespace DiscoveredProject

def projectFile : DiscoveredProject → HostPath
  | ableton bundle => bundle.liveSet
  | standalone projectFile _ => projectFile

def directory : DiscoveredProject → HostPath
  | ableton bundle => bundle.root
  | standalone projectFile _ => projectFile.parent.getD [.curDir]

def format : DiscoveredProject → ProjectFormat
  | ableton _ => .abletonLiveSet
  | standalone _ format => format

end DiscoveredProject

structure ScanOptions where
  maxDepth : Nat := 8
  maxProjects : Nat := 5000
  maxDirectories : Nat := 25000
  excludedDirectoryNames : List String := ["Packs", "Sample Packs", "Samples"]

abbrev Entries := List (HostPath × EntryKind)

/-- `AbletonBundle::from_root_entries` -/
def fromRootEntries (root : HostPath) (entries : Entries) : Except String (Option AbletonBundle) := do
  let hasProjectInfo := entries.any fun entry =>
    entry.1.fileName = some (.text projectInfoDir) && entry.2.isDir
  let liveSets := sortBy comparePaths
    ((entries.filter fun entry => entry.2.isFile && isLiveSet entry.1).map Prod.fst)
  if !hasProjectInfo && liveSets.length ≠ 1 then return none
  else
    let liveSet ← chooseLiveSetFrom root liveSets
    return some ⟨root, liveSet⟩

/-- `ProjectFormat::from_path`, for names that need not be UTF-8. -/
def formatFromPath (path : HostPath) : Option ProjectFormat :=
  if path.extensionIs "auru" then some .auru
  else if path.extensionIs "dawproject" then some .dawproject
  else if path.extensionIs "als" then some .abletonLiveSet
  else if path.extensionIs "flp" then some .flStudio
  else if path.extensionIs "bwproject" then some .bitwigProject
  else none

def standaloneFormat (entry : HostPath × EntryKind) : Option ProjectFormat :=
  (formatFromPath entry.1).bind fun format =>
    if entry.2.isFile && format ≠ .abletonLiveSet then some format else none

/-- Whether the name hides a folder or is one of those that are passed over. -/
def isPruned (options : ScanOptions) (name : String) : Bool :=
  name.toList.head? = some '.' || eqIgnoreAsciiCase name "Backup" ||
    eqIgnoreAsciiCase name "auto-backups" ||
    options.excludedDirectoryNames.any fun excluded => eqIgnoreAsciiCase name excluded

def isScannable (options : ScanOptions) (entry : HostPath × EntryKind) : Bool :=
  if entry.2 ≠ .folder then false
  else
    match entry.1.fileName.bind OsName.toStr with
    | none => false
    | some name => !isPruned options name

/-! The walk. -/

structure Scan where
  visitedDirectories : Nat
  found : List DiscoveredProject

/-- Whether a budget is reached. -/
def Scan.reached (options : ScanOptions) (scan : Scan) : Bool :=
  decide (options.maxProjects ≤ scan.found.length) ||
    decide (options.maxDirectories ≤ scan.visitedDirectories)

def entriesOf (dir : HostPath) (listing : List (OsName × EntryKind)) : Entries :=
  listing.map fun entry => (dir.child entry.1, entry.2)

/-- The project files of a folder, in order. -/
def standaloneFiles (entries : Entries) : List (HostPath × ProjectFormat) :=
  sortBy (fun left right => comparePaths left.1 right.1)
    (entries.filterMap fun entry => (standaloneFormat entry).map fun format => (entry.1, format))

/-- The folders to go on with, in order. -/
def scannableDirectories (options : ScanOptions) (entries : Entries) : List HostPath :=
  sortBy comparePaths
    ((entries.filter fun entry => (standaloneFormat entry).isNone && isScannable options entry).map
      Prod.fst)

def scanInto (tree : DirectoryTree) (options : ScanOptions) : Nat → HostPath → Scan → Scan
  | levels, dir, scan =>
    if scan.reached options then scan
    else
      let scan := { scan with visitedDirectories := scan.visitedDirectories + 1 }
      match tree.readDir dir with
      | none => scan
      | some listing =>
        let entries := entriesOf dir listing
        match fromRootEntries dir entries with
        | .ok (some bundle) => { scan with found := scan.found ++ [.ableton bundle] }
        | _ =>
          match levels with
          | 0 => scan
          | levels + 1 =>
            let files := (standaloneFiles entries).map fun file =>
              DiscoveredProject.standalone file.1 file.2
            let scan := { scan with found := scan.found ++ files }
            foldUntil (Scan.reached options) (scanInto tree options levels)
              (scannableDirectories options entries) scan

def scanFrom (tree : DirectoryTree) (options : ScanOptions) (root : HostPath) : Scan :=
  scanInto tree options options.maxDepth root ⟨0, []⟩

def scanForProjects (tree : DirectoryTree) (options : ScanOptions) (root : HostPath) :
    List DiscoveredProject :=
  (sortBy (fun left right => comparePaths left.projectFile right.projectFile)
    (scanFrom tree options root).found).take options.maxProjects

end AuruPm.Discovery
