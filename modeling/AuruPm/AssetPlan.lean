import AuruPm.FlStream
import AuruPm.Push

/-!
# Planning the files of a commit

Which files of a machine a commit of a snapshot stores, and which it reports as unavailable:
`ableton/assets.rs`, `flstudio/assets.rs`, the paths of native clips, and `asset_plan.rs`, which
chooses between them.
-/

namespace AuruPm

set_option autoImplicit false

open SortedAssoc

/-- A file to store, and where it is read. -/
structure PlannedFile where
  source : HostPath
  bundlePath : String
  kind : AssetKind
  origin : Option String
  deriving DecidableEq

def PlannedFile.read {Bytes : Type} (m : Machine Bytes) (file : PlannedFile) : PlannedAsset Bytes :=
  ⟨file.bundlePath, m.read file.source, file.kind, file.origin⟩

/-! Names in the bundle. -/

/-- A file name before its last dot, and from there on, unless it only starts with one. -/
def stemAndExtension (fileName : String) : String × String :=
  match rsplitDot fileName.toList with
  | none => (fileName, "")
  | some ([], _) => (fileName, "")
  | some (stem, extension) => (String.ofList stem, "." ++ String.ofList extension)

def suffixedPath (folder fileName : String) (suffix : Nat) : String :=
  folder ++ "/" ++ (stemAndExtension fileName).1 ++ "-" ++ toString suffix ++
    (stemAndExtension fileName).2

/-- The first of the paths with a suffix that is not taken. -/
def firstFree (folder fileName : String) (taken : List String) : Nat → Nat → String
  | 0, suffix => suffixedPath folder fileName suffix
  | fuel + 1, suffix =>
    if suffixedPath folder fileName suffix ∈ taken then
      firstFree folder fileName taken fuel (suffix + 1)
    else suffixedPath folder fileName suffix

/-- A path in the folder that is not taken. Among more paths than are taken, one is free. -/
def freePath (folder fileName : String) (taken : List String) : String :=
  if folder ++ "/" ++ fileName ∈ taken then firstFree folder fileName taken (taken.length + 1) 2
  else folder ++ "/" ++ fileName

/-! Ableton. -/

namespace Ableton

def allocatePath (fileName : String) (taken : List String) : String :=
  freePath importedDir fileName taken

def kindFor (fileName : String) : AssetKind :=
  let extension := ((rsplitDot fileName.toList).map Prod.snd).getD []
  let extension := String.ofList (extension.map Char.toLower)
  if extension ∈ ["adg", "adv", "alp", "ams", "agr"] then .preset
  else if extension = "asd" then .analysis
  else .sample

structure UnresolvedAsset where
  reference : String
  refClass : RefClass
  deriving DecidableEq

structure AssetPlan where
  assets : List PlannedFile := []
  unresolved : List UnresolvedAsset := []

def shouldGather (refClass : RefClass) (policy : BundlePolicy) : Bool :=
  match refClass with
  | .external => policy.vendorExternalAssets
  | .userLibrary => policy.vendorUserLibrary
  | _ => false

/-- The references to gather, each file once. -/
def outsideFrom (policy : BundlePolicy) (seen : List String) : List AssetRef → List AssetRef
  | [] => []
  | r :: rest =>
    if shouldGather r.refClass policy = false then outsideFrom policy seen rest
    else if r.dedupKey ∈ seen then outsideFrom policy seen rest
    else r :: outsideFrom policy (r.dedupKey :: seen) rest

def outside (policy : BundlePolicy) (refs : List AssetRef) : List AssetRef :=
  (outsideFrom policy [] refs).insertionSort fun a b => a.dedupKey ≤ b.dedupKey

/-- The assets by their paths, the paths taken and what is missing. -/
structure Gathering where
  assets : List (String × PlannedFile)
  taken : List String
  unresolved : List UnresolvedAsset

section Plan
variable {Bytes : Type} (m : Machine Bytes)

/-- What the folder itself contributes. -/
def fromFolder (bundle : AbletonBundle) (policy : BundlePolicy) : List BundleFile × Gathering :=
  match bundle.enumerate m policy with
  | .error e => ([], ⟨[], [], [⟨bundle.root.display ++ " (" ++ e ++ ")", .inFolder⟩]⟩)
  | .ok files =>
    let assets := files.foldl (fun assets file =>
      SortedAssoc.insert file.relative ⟨file.source, file.relative, file.kind, none⟩ assets) []
    (files, ⟨assets, assets.map Prod.fst, []⟩)

/-- One reference from outside the folder. -/
def gather (bundle : AbletonBundle) (policy : BundlePolicy) (enumerated : List HostPath)
    (g : Gathering) (r : AssetRef) : Except Panic Gathering := do
  match ← bundle.resolve m policy r.relativePath r.absolutePath with
  | none => return { g with unresolved := g.unresolved ++ [⟨r.dedupKey, r.refClass⟩] }
  | some source =>
    if bundle.contains source then
      if source ∈ enumerated then return g
      else return { g with unresolved := g.unresolved ++ [⟨r.dedupKey, .inFolder⟩] }
    else
      match r.fileName with
      | none => return g
      | some fileName =>
        let bundlePath := allocatePath fileName g.taken
        return { g with
          assets := SortedAssoc.insert bundlePath
            ⟨source, bundlePath, kindFor fileName, some r.dedupKey⟩ g.assets
          taken := bundlePath :: g.taken }

def gatherAll (bundle : AbletonBundle) (policy : BundlePolicy) (enumerated : List HostPath) :
    Gathering → List AssetRef → Except Panic Gathering
  | g, [] => .ok g
  | g, r :: rest => do
    let g ← gather m bundle policy enumerated g r
    gatherAll bundle policy enumerated g rest

def plan (bundle : AbletonBundle) (root : XmlElement) (policy : BundlePolicy) :
    Except Panic AssetPlan := do
  let (files, g) := fromFolder m bundle policy
  let g ← gatherAll m bundle policy (files.map BundleFile.source) g (outside policy (collect root))
  return ⟨g.assets.map Prod.snd, g.unresolved⟩

end Plan

def isAbletonSnapshot (snapshot : Value) : Bool :=
  (snapshot.get "auru_pm_snapshot").isSome &&
    (snapshot.get "format").bind Value.asStr = some "ableton-live-set"

section FromValue
variable {Bytes Hash : Type} (C : Codecs Bytes Hash) (m : Machine Bytes)

def rootFromValue (snapshot : Value) : Option XmlElement :=
  (readPortable C snapshot).map fun portable => portable.project.root

/-- No plan, and no error, for a set that lies in no project folder. -/
def planAssetsFromValue (snapshot : Value) (projectRoot : HostPath) (policy : BundlePolicy) :
    Except Panic AssetPlan :=
  if !isAbletonSnapshot snapshot then .ok {}
  else
    match AbletonBundle.detect m projectRoot with
    | .ok (some bundle) =>
      match rootFromValue C snapshot with
      | some root => plan m bundle root policy
      | none => .ok {}
    | _ => .ok {}

end FromValue

end Ableton

/-! FL Studio. -/

namespace FlStudio

def samplesDir : String := "Samples"

/-- A file name that can be written on any machine. -/
def sanitize (fileName : String) : String :=
  let cleaned := fileName.toList.map fun c =>
    if c ∈ ['/', '\\', ':', '*', '?', '"', '<', '>', '|'] || Ableton.isControl c then '_' else c
  let trimmed := ((cleaned.dropWhile isWhitespace).reverse.dropWhile isWhitespace).reverse
  let trimmed := ((trimmed.dropWhile (· = '.')).reverse.dropWhile (· = '.')).reverse
  if trimmed = [] then "sample" else String.ofList trimmed

def uniqueDestination (fileName : String) (taken : List String) : String :=
  freePath samplesDir (sanitize fileName) taken

structure UnresolvedAsset where
  recordedPath : String
  refClass : RefClass
  reason : String
  deriving DecidableEq

structure AssetPlan where
  assets : List PlannedFile := []
  unresolved : List UnresolvedAsset := []

def lowerName (r : AssetRef) : List Char := r.fileName.toList.map Char.toLower

section Plan
variable {Bytes : Type} (m : Machine Bytes)

/-- Where a captured file is found, or why it is not: its recorded place, else beside the project
when no other reference has its name. -/
def findSource (references : List AssetRef) (projectDirectory : Option HostPath)
    (aliases : List Ableton.PathAlias) (r : AssetRef) : Except String HostPath :=
  let recordedSource := r.localPath aliases
  let unique := (references.filter fun other => lowerName other = lowerName r).length = 1
  let sibling := (projectDirectory.map fun directory => directory.join (.ofText r.fileName)).filter
    m.isFile
  let source := (recordedSource.filter m.isFile).or (if unique then sibling else none)
  match source with
  | some source => .ok source
  | none =>
    .error (
      if !unique && sibling.isSome then
        "a file with this name is beside the project, but more than one reference shares the name"
      else if r.refClass = .fragile then
        "this was in temporary space and has already been deleted"
      else if recordedSource = none then
        "this path is on another machine; set a path alias to find it"
      else "no file at this path on this machine")

/-- The files captured for references, given the names taken so far. -/
def planRefs (references : List AssetRef) (projectDirectory : Option HostPath)
    (aliases : List Ableton.PathAlias) (taken : List String) : List AssetRef → AssetPlan
  | [] => {}
  | r :: rest =>
    if r.refClass.shouldVendor = false then
      let plan := planRefs references projectDirectory aliases taken rest
      if r.refClass = .missing then
        { plan with unresolved :=
            ⟨r.recordedPath, r.refClass, "the project records no path for this sample"⟩ ::
              plan.unresolved }
      else plan
    else
      match findSource m references projectDirectory aliases r with
      | .error reason =>
        let plan := planRefs references projectDirectory aliases taken rest
        { plan with unresolved := ⟨r.recordedPath, r.refClass, reason⟩ :: plan.unresolved }
      | .ok source =>
        let bundlePath := uniqueDestination r.fileName taken
        let plan := planRefs references projectDirectory aliases (bundlePath :: taken) rest
        { plan with assets := ⟨source, bundlePath, .sample, some r.recordedPath⟩ :: plan.assets }

def planFromDirectory (refs : List AssetRef) (projectDirectory : Option HostPath)
    (aliases : List Ableton.PathAlias) : AssetPlan :=
  let references := distinct [] refs
  let plan := planRefs m references projectDirectory aliases [] references
  { plan with assets := plan.assets.insertionSort fun a b => a.bundlePath ≤ b.bundlePath }

end Plan

end FlStudio

/-! Native projects. -/

def clipPath (clip : Value) : Option String :=
  (((clip.get "data").bind (·.get "Audio")).bind (·.get "file_path")).bind Value.asStr

def arrayAt (v : Value) (key : String) : List Value :=
  ((v.get key).bind Value.asArray).getD []

def samplePathsInSnapshot (snapshot : Value) : List String :=
  keySet ((((arrayAt snapshot "channels").flatMap fun channel => arrayAt channel "clips").filterMap
    clipPath).filter (· ≠ ""))

def nativeFile (projectDirectory : Option HostPath) (path : String) : PlannedFile :=
  let recorded := HostPath.ofText path
  let source := match recorded.isRelative, projectDirectory with
    | true, some root => root.join recorded
    | _, _ => recorded
  ⟨source, path, .sample, none⟩

/-! Every format. -/

section Formats
variable {Bytes Hash : Type} (F : Formats Bytes Hash) (C : Codecs Bytes Hash)

/-- The bytes of a byte string. -/
abbrev ByteView (Bytes : Type) := Bytes → List UInt8

variable [DecidableEq Hash] (bytesOf : ByteView Bytes) (m : Machine Bytes)

/-- The event stream of a snapshot, from the project file that it restores to. -/
def flSource (snapshot : Value) : Option Bytes :=
  match ProjectSnapshot.fromCanonicalBytes F C (F.encodeValue snapshot) with
  | .error _ => none
  | .ok snapshot => (snapshot.restoreBytes F C).toOption

def flReferencesUnreadable : String := "FL Studio project references could not be read"

def flstudioAssetsFromValue (snapshot : Value) (projectDirectory : Option HostPath)
    (policy : Ableton.BundlePolicy) : PlannedAssets Bytes :=
  match flSource F C snapshot with
  | none => ⟨[], [flReferencesUnreadable]⟩
  | some source =>
    match FlStudio.Stream.decode (bytesOf source) with
    | .error e => ⟨[], [flReferencesUnreadable ++ ": " ++ e]⟩
    | .ok stream =>
      let plan := FlStudio.planFromDirectory m (FlStudio.collect m.home stream) projectDirectory
        policy.pathAliases
      ⟨plan.assets.map (PlannedFile.read m), plan.unresolved.map (·.recordedPath)⟩

/-- What a commit of a snapshot stores of this machine's files. -/
def planAssetsWithReport (snapshot : Value) (projectDirectory : Option HostPath)
    (policy : Ableton.BundlePolicy) : Except Ableton.Panic (PlannedAssets Bytes) :=
  if Ableton.isAbletonSnapshot snapshot then
    match projectDirectory with
    | none => .ok ⟨[], []⟩
    | some root => do
      let plan ← Ableton.planAssetsFromValue C m snapshot root policy
      return ⟨plan.assets.map (PlannedFile.read m), plan.unresolved.map (·.reference)⟩
  else if (snapshot.get "format").bind readFormat = some .flStudio then
    .ok (flstudioAssetsFromValue F C bytesOf m snapshot projectDirectory policy)
  else
    .ok ⟨(samplePathsInSnapshot snapshot).map fun path =>
      (nativeFile projectDirectory path).read m, []⟩

end Formats

end AuruPm
