import AuruPm.LibraryRefresh
import AuruPm.ProjectScan

/-!
# The order of the library

How the rows of the library are ordered. The comparison goes by a key of the order, then by the
name and last by the folder, and the sort is stable. Files of one folder share the folder.
-/

namespace AuruPm.Library

set_option autoImplicit false

open Server BackupStatus Discovery StableSort

/-! Rows from files on this computer. -/

structure LocalFileState where
  status : ProjectStatus
  modifiedAt : Option SystemTime
  backedUpAt : Option SystemTime

/-- From the status on disk and the modification times of the project file and of the sidecar. -/
def localFileState (status : ProjectStatus) (project sidecar : Option SystemTime) :
    LocalFileState where
  status := status
  modifiedAt := project
  backedUpAt := match status with
    | .neverBackedUp => none
    | _ => sidecar

/-- The fields of a sidecar that a row takes. -/
structure LinkedSidecar (Hash : Type) where
  primary : Option String
  localHead : Option Hash
  providerHandles : ProviderHandles
  metadata : ProjectMetadata
  location : Option ProjectLocation

structure ProviderLinks (Hash : Type) where
  remote : Option (RemoteProjectRef Hash) := none
  handles : ProviderHandles := ⟨[], List.Pairwise.nil⟩
  metadata : ProjectMetadata := ⟨none, []⟩
  location : Option ProjectLocation := none

variable {Hash Info Shown : Type}

def providerLinksFor (sidecar : Except String (LinkedSidecar Hash)) : ProviderLinks Hash :=
  match sidecar with
  | .error _ => {}
  | .ok sidecar =>
    { remote := do
        let providerId ← sidecar.primary
        let handle ← SortedAssoc.get? sidecar.providerHandles.val providerId
        let head ← sidecar.localHead
        pure ⟨providerId, handle, head⟩
      handles := sidecar.providerHandles
      metadata := sidecar.metadata
      location := sidecar.location }

/-- `Project::read_from_disk`, from what was found there. -/
def Project.readFromDisk (found : DiscoveredProject) (file : LocalFileState)
    (links : ProviderLinks Hash) (shown : Shown) : Project Hash Shown where
  id := "project:" ++ found.projectFile.display
  name := found.projectFile.fileStem.getD "Untitled"
  fileName := (found.projectFile.fileName.bind OsName.toStr).getD ""
  localPath := found.directory.display
  format := found.format
  status := file.status
  modifiedAt := file.modifiedAt
  backedUpAt := file.backedUpAt
  addedAt := none
  liveSet := some (found.projectFile.map fun component => HostPath.display [component])
  remote := links.remote
  providerHandles := links.handles
  metadata := links.metadata
  location := links.location
  shown := shown

/-! The order. -/

inductive SortOrder where
  | attentionRequired
  | lastModifiedLocal
  | lastModifiedRemote
  | nameAscending
  | recentlyAdded
  deriving DecidableEq

def needsAttention : ProjectStatus → Bool
  | .neverBackedUp | .outOfSync _ | .conflicted => true
  | _ => false

/-- Unknown times come last. -/
def newestFirst : Option SystemTime → Option SystemTime → Ordering
  | some left, some right => compare right left
  | some _, none => .lt
  | none, some _ => .gt
  | none, none => .eq

def primary (order : SortOrder) (left right : Project Hash Shown) : Ordering :=
  match order with
  | .attentionRequired => compare (needsAttention right.status) (needsAttention left.status)
  | .lastModifiedLocal => newestFirst left.modifiedAt right.modifiedAt
  | .lastModifiedRemote => newestFirst left.backedUpAt right.backedUpAt
  | .nameAscending => .eq
  | .recentlyAdded => compare right.addedAt left.addedAt

variable (toLowercase : String → String) (order : SortOrder)

def compareProjects (left right : Project Hash Shown) : Ordering :=
  ((primary order left right).then
    (compare (toLowercase left.name) (toLowercase right.name))).then
    (compare left.localPath right.localPath)

def sortProjects (projects : List (Project Hash Shown)) : List (Project Hash Shown) :=
  sortBy (compareProjects toLowercase order) projects

/-! Ties. -/

theorem newestFirst_eq (left right : Option SystemTime) :
    newestFirst left right = compare right left := by
  cases left <;> cases right <;> rfl

/-- The rows agree on the key of the order. -/
def SameKey (left right : Project Hash Shown) : Prop :=
  match order with
  | .attentionRequired => needsAttention left.status = needsAttention right.status
  | .lastModifiedLocal => left.modifiedAt = right.modifiedAt
  | .lastModifiedRemote => left.backedUpAt = right.backedUpAt
  | .nameAscending => True
  | .recentlyAdded => left.addedAt = right.addedAt

/-- The rows agree on all that the order compares. -/
structure Ties (left right : Project Hash Shown) : Prop where
  key : SameKey order left right
  name : toLowercase left.name = toLowercase right.name
  localPath : left.localPath = right.localPath

theorem primary_eq_iff {left right : Project Hash Shown} :
    primary order left right = .eq ↔ SameKey order left right := by
  cases order with
  | attentionRequired => exact Std.LawfulEqOrd.compare_eq_iff_eq.trans eq_comm
  | lastModifiedLocal =>
    rw [primary, newestFirst_eq]
    exact Std.LawfulEqOrd.compare_eq_iff_eq.trans eq_comm
  | lastModifiedRemote =>
    rw [primary, newestFirst_eq]
    exact Std.LawfulEqOrd.compare_eq_iff_eq.trans eq_comm
  | nameAscending => exact iff_of_true rfl trivial
  | recentlyAdded => exact Std.LawfulEqOrd.compare_eq_iff_eq.trans eq_comm

theorem compareProjects_eq_iff {left right : Project Hash Shown} :
    compareProjects toLowercase order left right = .eq ↔ Ties toLowercase order left right := by
  rw [compareProjects, Ordering.then_eq_eq, Ordering.then_eq_eq, primary_eq_iff,
    Std.LawfulEqOrd.compare_eq_iff_eq, Std.LawfulEqOrd.compare_eq_iff_eq]
  exact ⟨fun ⟨⟨hkey, hname⟩, hpath⟩ => ⟨hkey, hname, hpath⟩,
    fun h => ⟨⟨h.key, h.name⟩, h.localPath⟩⟩

theorem transCmp_newest (time : Project Hash Shown → Option SystemTime) :
    Std.TransCmp fun left right => newestFirst (time left) (time right) := by
  simp only [newestFirst_eq]
  exact transCmp_key (fun left right : Option Int => compare right left) time

instance transCmp_primary : Std.TransCmp (α := Project Hash Shown) (primary order) := by
  cases order with
  | attentionRequired =>
    exact transCmp_key (fun left right : Bool => compare right left)
      fun project : Project Hash Shown => needsAttention project.status
  | lastModifiedLocal => exact transCmp_newest Project.modifiedAt
  | lastModifiedRemote => exact transCmp_newest Project.backedUpAt
  | nameAscending => exact transCmp_key compare fun _ => ()
  | recentlyAdded =>
    exact transCmp_key (fun left right : Option Int => compare right left) Project.addedAt

instance transCmp_compareProjects :
    Std.TransCmp (α := Project Hash Shown) (compareProjects toLowercase order) := by
  have hname : Std.TransCmp fun left right : Project Hash Shown =>
      compare (toLowercase left.name) (toLowercase right.name) :=
    transCmp_key compare fun project : Project Hash Shown => toLowercase project.name
  have hpath : Std.TransCmp fun left right : Project Hash Shown =>
      compare left.localPath right.localPath :=
    transCmp_key compare Project.localPath
  exact inferInstanceAs (Std.TransCmp (compareLex (compareLex (primary order) _) _))

/-- Every order of the rows sorts alike exactly when no two rows tie. -/
theorem sortProjects_perm_iff {projects : List (Project Hash Shown)}
    (hids : (projects.map Project.id).Nodup) :
    (∀ rows, projects.Perm rows →
        sortProjects toLowercase order rows = sortProjects toLowercase order projects) ↔
      projects.Pairwise fun left right => ¬ Ties toLowercase order left right := by
  simp only [← compareProjects_eq_iff]
  exact sortBy_perm_iff (List.Nodup.of_map _ hids)

/-- A project of the music folder that was never backed up. -/
def musicProject (name : String) (format : ProjectFormat) : Project Unit Unit :=
  .readFromDisk (.standalone [.rootDir, .normal (.text "music"), .normal (.text name)] format)
    (localFileState .neverBackedUp (some 0) none) (providerLinksFor (.error "not found")) ()

def songRows : List (Project Unit Unit) :=
  [musicProject "Song.flp" .flStudio, musicProject "Song.dawproject" .dawproject]

/-- The same song for two programs, in one folder. -/
theorem songs_reshuffle : (songRows.map Project.id).Nodup ∧ songRows.Perm songRows.reverse ∧
    sortProjects String.toLower .nameAscending songRows.reverse ≠
      sortProjects String.toLower .nameAscending songRows := by
  have hids : (songRows.map Project.id).Nodup := by decide +kernel
  have htie : compareProjects String.toLower .nameAscending
      (musicProject "Song.flp" .flStudio) (musicProject "Song.dawproject" .dawproject) = .eq := by
    decide +kernel
  exact ⟨hids, songRows.reverse_perm.symm,
    sortBy_ne_reverse (List.Nodup.of_map _ hids) (List.Sublist.refl _) htie⟩

/-- A song and another one. -/
theorem two_songs_keep_order :
    sortProjects String.toLower .nameAscending
        [musicProject "Other.flp" .flStudio, musicProject "Song.flp" .flStudio] =
      sortProjects String.toLower .nameAscending
        [musicProject "Song.flp" .flStudio, musicProject "Other.flp" .flStudio] := by
  refine (sortProjects_perm_iff String.toLower .nameAscending (by decide +kernel)).mpr ?_ _
    (List.Perm.swap _ _ _)
  rw [List.pairwise_pair]
  intro h
  exact absurd h.name (by decide +kernel)

end AuruPm.Library
