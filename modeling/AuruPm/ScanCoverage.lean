import AuruPm.ProjectScan

/-!
# What a scan for projects finds

The result does not depend on the order in which folders list their entries, and the budgets hold.
While no budget is reached, it is every project of the searched folders, once, apart from project
files in the deepest of these folders and from what lies in folders whose names are not UTF-8.
-/

namespace AuruPm.Discovery

set_option autoImplicit false

open Ableton (AbletonBundle projectInfoDir isLiveSet chooseLiveSetFrom)
open StableSort FoldUntil

/-! The order of paths. -/

instance transCmp_comparePaths : Std.TransCmp comparePaths :=
  transCmp_key compare fun path : HostPath => path.map componentKey

theorem bytes_eq_of_comparePaths {dir : HostPath} {a b : OsName}
    (h : comparePaths (dir.child a) (dir.child b) = .eq) : a.bytes = b.bytes := by
  have hkeys := Std.LawfulEqOrd.eq_of_compare h
  rw [HostPath.child, HostPath.child, List.map_append, List.map_append] at hkeys
  have hlast := List.append_cancel_left hkeys
  rw [List.map_singleton, List.map_singleton, List.singleton_inj] at hlast
  exact (List.cons.inj hlast).2

/-! One folder. -/

/-- What the walk makes of a folder: its files and the folders to go on with, unless it is a project
folder. -/
inductive Look where
  | unreadable
  | project (bundle : AbletonBundle)
  | folder (files : List DiscoveredProject) (directories : List HostPath)

def look (tree : DirectoryTree) (options : ScanOptions) (dir : HostPath) : Look :=
  match tree.readDir dir with
  | none => .unreadable
  | some listing =>
    match fromRootEntries dir (entriesOf dir listing) with
    | .ok (some bundle) => .project bundle
    | _ =>
      .folder ((standaloneFiles (entriesOf dir listing)).map fun file => .standalone file.1 file.2)
        (scannableDirectories options (entriesOf dir listing))

def Scan.visit (scan : Scan) : Scan := { scan with visitedDirectories := scan.visitedDirectories + 1 }

def Scan.add (scan : Scan) (projects : List DiscoveredProject) : Scan :=
  { scan with found := scan.found ++ projects }

theorem scanInto_eq (tree : DirectoryTree) (options : ScanOptions) (levels : Nat) (dir : HostPath)
    (scan : Scan) :
    scanInto tree options levels dir scan =
      if scan.reached options then scan
      else
        match look tree options dir, levels with
        | .unreadable, _ => scan.visit
        | .project bundle, _ => scan.visit.add [.ableton bundle]
        | .folder _ _, 0 => scan.visit
        | .folder files directories, levels + 1 =>
          foldUntil (Scan.reached options) (scanInto tree options levels) directories
            (scan.visit.add files) := by
  rw [scanInto.eq_def, look]
  dsimp only
  split
  · rfl
  cases hlisting : tree.readDir dir with
  | none => rfl
  | some listing =>
    dsimp only
    cases hbundle : fromRootEntries dir (entriesOf dir listing) with
    | error e => cases levels <;> rfl
    | ok bundle =>
      cases bundle with
      | none => cases levels <;> rfl
      | some bundle => rfl

/-! Listings in another order. -/

section Relisted
variable (dir : HostPath) {listing listing' : List (OsName × EntryKind)}

/-- No two entries of a folder tie. -/
theorem entriesOf_untied (hdistinct : (listing.map fun entry => entry.1.bytes).Nodup) :
    (entriesOf dir listing).Pairwise fun left right => comparePaths left.1 right.1 ≠ .eq := by
  rw [entriesOf, List.pairwise_map]
  rw [List.Nodup, List.pairwise_map] at hdistinct
  exact hdistinct.imp fun hne heq => hne (bytes_eq_of_comparePaths heq)

variable (hdistinct : (listing.map fun entry => entry.1.bytes).Nodup) (hperm : listing.Perm listing')
include hdistinct hperm

theorem sortBy_paths_eq (p : HostPath × EntryKind → Bool) :
    sortBy comparePaths (((entriesOf dir listing).filter p).map Prod.fst) =
      sortBy comparePaths (((entriesOf dir listing').filter p).map Prod.fst) := by
  apply sortBy_eq_of_perm
  · rw [List.pairwise_map]
    exact (entriesOf_untied dir hdistinct).filter p
  · exact ((hperm.map _).filter p).map Prod.fst

theorem standaloneFiles_eq :
    standaloneFiles (entriesOf dir listing) = standaloneFiles (entriesOf dir listing') := by
  have : Std.TransCmp fun left right : HostPath × ProjectFormat => comparePaths left.1 right.1 :=
    transCmp_key comparePaths Prod.fst
  apply sortBy_eq_of_perm
  · rw [List.pairwise_filterMap]
    refine (entriesOf_untied dir hdistinct).imp ?_
    intro left right hne file hfile file' hfile'
    obtain ⟨_, _, rfl⟩ := Option.map_eq_some_iff.mp hfile
    obtain ⟨_, _, rfl⟩ := Option.map_eq_some_iff.mp hfile'
    exact hne
  · exact (hperm.map _).filterMap _

theorem fromRootEntries_eq :
    fromRootEntries dir (entriesOf dir listing) = fromRootEntries dir (entriesOf dir listing') := by
  have hentries : (entriesOf dir listing).Perm (entriesOf dir listing') := hperm.map _
  rw [fromRootEntries, fromRootEntries, sortBy_paths_eq dir hdistinct hperm, hentries.any_eq]

end Relisted

/-- The same folders, listed in other orders. -/
def DirectoryTree.Relisted (tree tree' : DirectoryTree) : Prop :=
  ∀ path, Option.Rel List.Perm (tree.readDir path) (tree'.readDir path)

theorem look_relisted {tree tree' : DirectoryTree} (h : tree.Relisted tree')
    (options : ScanOptions) (dir : HostPath) : look tree options dir = look tree' options dir := by
  have hdir := h dir
  rw [look, look]
  cases hlisting : tree.readDir dir with
  | none =>
    rw [hlisting] at hdir
    cases hlisting' : tree'.readDir dir with
    | none => rfl
    | some listing' =>
      rw [hlisting'] at hdir
      cases hdir
  | some listing =>
    rw [hlisting] at hdir
    cases hlisting' : tree'.readDir dir with
    | none =>
      rw [hlisting'] at hdir
      cases hdir
    | some listing' =>
      rw [hlisting'] at hdir
      cases hdir with
      | some hperm =>
        have hdistinct := tree.distinct dir listing hlisting
        dsimp only
        rw [fromRootEntries_eq dir hdistinct hperm, standaloneFiles_eq dir hdistinct hperm,
          scannableDirectories, sortBy_paths_eq dir hdistinct hperm]
        rfl

/-- The walk does not depend on the order of the entries. -/
theorem scanInto_relisted {tree tree' : DirectoryTree} (h : tree.Relisted tree')
    (options : ScanOptions) (levels : Nat) :
    scanInto tree options levels = scanInto tree' options levels := by
  induction levels with
  | zero =>
    funext dir scan
    rw [scanInto_eq, scanInto_eq, look_relisted h]
    cases look tree' options dir <;> rfl
  | succ levels ih =>
    funext dir scan
    rw [scanInto_eq, scanInto_eq, look_relisted h]
    cases look tree' options dir with
    | unreadable => rfl
    | project bundle => rfl
    | folder files directories =>
      dsimp only
      rw [ih]

theorem scanForProjects_relisted {tree tree' : DirectoryTree} (h : tree.Relisted tree')
    (options : ScanOptions) (root : HostPath) :
    scanForProjects tree' options root = scanForProjects tree options root := by
  rw [scanForProjects, scanForProjects, scanFrom, scanFrom, scanInto_relisted h]

/-! The budgets. -/

theorem visited_lt {options : ScanOptions} {scan : Scan} (h : ¬ scan.reached options = true) :
    scan.visitedDirectories < options.maxDirectories := by
  rw [Scan.reached, Bool.or_eq_true, decide_eq_true_eq, decide_eq_true_eq] at h
  omega

theorem scanInto_visited (tree : DirectoryTree) (options : ScanOptions) (levels : Nat)
    (dir : HostPath) {scan : Scan} (h : scan.visitedDirectories ≤ options.maxDirectories) :
    (scanInto tree options levels dir scan).visitedDirectories ≤ options.maxDirectories := by
  induction levels generalizing dir scan with
  | zero =>
    rw [scanInto_eq]
    split
    · exact h
    · rename_i hreached
      cases look tree options dir <;> exact visited_lt hreached
  | succ levels ih =>
    rw [scanInto_eq]
    split
    · exact h
    · rename_i hreached
      cases look tree options dir with
      | unreadable => exact visited_lt hreached
      | project bundle => exact visited_lt hreached
      | folder files directories =>
        exact foldUntil_keeps (P := fun scan : Scan =>
          scan.visitedDirectories ≤ options.maxDirectories) (fun dir _ h => ih dir h) directories
          (visited_lt hreached)

/-! The walk without budgets. -/

def walk (tree : DirectoryTree) (options : ScanOptions) : Nat → HostPath → List DiscoveredProject
  | 0, dir =>
    match look tree options dir with
    | .project bundle => [.ableton bundle]
    | _ => []
  | levels + 1, dir =>
    match look tree options dir with
    | .unreadable => []
    | .project bundle => [.ableton bundle]
    | .folder files directories => files ++ directories.flatMap (walk tree options levels)

/-- While no budget is reached, the walk finds what it finds without budgets. -/
theorem scanInto_found {tree : DirectoryTree} {options : ScanOptions} {levels : Nat}
    {dir : HostPath} {scan : Scan}
    (h : (scanInto tree options levels dir scan).reached options = false) :
    (scanInto tree options levels dir scan).found = scan.found ++ walk tree options levels dir := by
  induction levels generalizing dir scan with
  | zero =>
    rw [scanInto_eq] at h ⊢
    rw [walk]
    split at h
    · rename_i hreached
      rw [hreached] at h
      cases h
    · rename_i hreached
      rw [if_neg hreached]
      cases look tree options dir with
      | unreadable => exact (List.append_nil _).symm
      | project bundle => rfl
      | folder files directories => exact (List.append_nil _).symm
  | succ levels ih =>
    rw [scanInto_eq] at h ⊢
    rw [walk]
    split at h
    · rename_i hreached
      rw [hreached] at h
      cases h
    · rename_i hreached
      rw [if_neg hreached]
      cases hlook : look tree options dir with
      | unreadable => exact (List.append_nil _).symm
      | project bundle => rfl
      | folder files directories =>
        rw [hlook] at h
        dsimp only at h ⊢
        have hturn : ∀ (child : HostPath) (scan : Scan),
            (scanInto tree options levels child scan).reached options = false →
            (scanInto tree options levels child scan).found =
              scan.found ++ walk tree options levels child := fun _ _ h => ih h
        rw [foldUntil_gathers Scan.found hturn directories h, ← List.append_assoc]
        rfl

/-! The projects below a folder. -/

/-- The project that a folder of Ableton is. -/
def projectFolder (tree : DirectoryTree) (dir : HostPath) : Option AbletonBundle :=
  (tree.readDir dir).bind fun listing =>
    match fromRootEntries dir (entriesOf dir listing) with
    | .ok bundle => bundle
    | .error _ => none

/-- Hidden, `Backup`, `auto-backups` or excluded. -/
def PassedOver (options : ScanOptions) : OsName → Prop
  | .text name => isPruned options name = true
  | .raw bytes => bytes.head? = some 46

/-- The names lead through folders that are searched, none of them a project. -/
inductive Searched (tree : DirectoryTree) (options : ScanOptions) : HostPath → List OsName → Prop
  | here (dir : HostPath) : Searched tree options dir []
  | child {dir : HostPath} {name : OsName} {names : List OsName}
      {listing : List (OsName × EntryKind)} (hlisting : tree.readDir dir = some listing)
      (hproject : projectFolder tree dir = none) (hname : (name, .folder) ∈ listing)
      (hsearched : ¬ PassedOver options name) (hrest : Searched tree options (dir.child name) names) :
      Searched tree options dir (name :: names)

/-- A folder is a project, or has a project file. -/
inductive Holds (tree : DirectoryTree) (dir : HostPath) : DiscoveredProject → Prop
  | ableton {bundle : AbletonBundle} (h : projectFolder tree dir = some bundle) :
      Holds tree dir (.ableton bundle)
  | standalone {listing : List (OsName × EntryKind)} {name : OsName} {kind : EntryKind}
      {format : ProjectFormat} (hproject : projectFolder tree dir = none)
      (hlisting : tree.readDir dir = some listing) (hname : (name, kind) ∈ listing)
      (hformat : standaloneFormat (dir.child name, kind) = some format) :
      Holds tree dir (.standalone (dir.child name) format)

def folderAt (dir : HostPath) (names : List OsName) : HostPath := names.foldl HostPath.child dir

/-- A project whose folder is searched, at most so many levels below. -/
structure Lies (tree : DirectoryTree) (options : ScanOptions) (levels : Nat) (dir : HostPath)
    (names : List OsName) (project : DiscoveredProject) : Prop where
  depth : names.length ≤ levels
  searched : Searched tree options dir names
  holds : Holds tree (folderAt dir names) project

def DiscoveredProject.isStandalone : DiscoveredProject → Bool
  | ableton _ => false
  | standalone _ _ => true

/-- The names are UTF-8, and a project file is not in a folder of the last level. -/
structure Offered (levels : Nat) (names : List OsName) (project : DiscoveredProject) : Prop where
  named : ∀ name ∈ names, name.toStr.isSome
  depth : project.isStandalone = true → names.length < levels

section Found
variable {tree : DirectoryTree} {options : ScanOptions} {dir : HostPath}

theorem look_unreadable (h : tree.readDir dir = none) : look tree options dir = .unreadable := by
  rw [look, h]

theorem look_project {bundle : AbletonBundle} (h : projectFolder tree dir = some bundle) :
    look tree options dir = .project bundle := by
  obtain ⟨listing, hlisting, hbundle⟩ := Option.bind_eq_some_iff.mp h
  rw [look, hlisting]
  dsimp only
  split at hbundle
  · rename_i heq
    rw [heq, hbundle]
  · cases hbundle

theorem look_folder {listing : List (OsName × EntryKind)} (hlisting : tree.readDir dir = some listing)
    (hproject : projectFolder tree dir = none) :
    look tree options dir =
      .folder ((standaloneFiles (entriesOf dir listing)).map fun file => .standalone file.1 file.2)
        (scannableDirectories options (entriesOf dir listing)) := by
  rw [projectFolder, hlisting, Option.bind_some] at hproject
  rw [look, hlisting]
  dsimp only
  split at hproject
  · rename_i heq
    rw [heq, hproject]
  · rename_i heq
    rw [heq]

theorem mem_files {listing : List (OsName × EntryKind)} {project : DiscoveredProject} :
    project ∈ ((standaloneFiles (entriesOf dir listing)).map fun file =>
        DiscoveredProject.standalone file.1 file.2) ↔
      ∃ name kind format, (name, kind) ∈ listing ∧
        standaloneFormat (dir.child name, kind) = some format ∧
        project = .standalone (dir.child name) format := by
  rw [List.mem_map]
  constructor
  · rintro ⟨file, hfile, rfl⟩
    obtain ⟨entry, hentry, hfound⟩ := List.mem_filterMap.mp ((sortBy_perm _ _).mem_iff.mp hfile)
    obtain ⟨⟨name, kind⟩, hname, rfl⟩ := List.mem_map.mp hentry
    obtain ⟨format, hformat, rfl⟩ := Option.map_eq_some_iff.mp hfound
    exact ⟨name, kind, format, hname, hformat, rfl⟩
  · rintro ⟨name, kind, format, hname, hformat, rfl⟩
    refine ⟨(dir.child name, format), (sortBy_perm _ _).mem_iff.mpr (List.mem_filterMap.mpr ?_), rfl⟩
    exact ⟨(dir.child name, kind), List.mem_map_of_mem hname, by rw [hformat]; rfl⟩

theorem standaloneFormat_folder (path : HostPath) : standaloneFormat (path, .folder) = none := by
  rw [standaloneFormat]
  cases formatFromPath path <;> rfl

theorem fileName_child (dir : HostPath) (name : OsName) : (dir.child name).fileName = some name := by
  simp [HostPath.child, HostPath.fileName]

theorem isScannable_child {name : OsName} {kind : EntryKind} :
    isScannable options (dir.child name, kind) = true ↔
      kind = .folder ∧ name.toStr.isSome ∧ ¬ PassedOver options name := by
  have hname : (dir.child name).fileName.bind OsName.toStr = name.toStr := by
    rw [fileName_child, Option.bind_some]
  rw [isScannable]
  dsimp only
  rw [hname]
  cases name with
  | text name => simp [OsName.toStr, PassedOver]
  | raw bytes => simp [OsName.toStr]

theorem mem_directories {listing : List (OsName × EntryKind)} {child : HostPath} :
    child ∈ scannableDirectories options (entriesOf dir listing) ↔
      ∃ name, (name, .folder) ∈ listing ∧ name.toStr.isSome ∧ ¬ PassedOver options name ∧
        child = dir.child name := by
  rw [scannableDirectories, (sortBy_perm _ _).mem_iff, List.mem_map]
  constructor
  · rintro ⟨entry, hentry, rfl⟩
    obtain ⟨hentry, hscan⟩ := List.mem_filter.mp hentry
    obtain ⟨⟨name, kind⟩, hname, rfl⟩ := List.mem_map.mp hentry
    rw [Bool.and_eq_true, isScannable_child] at hscan
    obtain ⟨_, rfl, htext, hpassed⟩ := hscan
    exact ⟨name, hname, htext, hpassed, rfl⟩
  · rintro ⟨name, hname, htext, hpassed, rfl⟩
    refine ⟨(dir.child name, .folder), List.mem_filter.mpr ⟨List.mem_map_of_mem hname, ?_⟩, rfl⟩
    rw [Bool.and_eq_true, standaloneFormat_folder, isScannable_child]
    exact ⟨rfl, rfl, htext, hpassed⟩

theorem holds_iff_of_project {bundle : AbletonBundle} {project : DiscoveredProject}
    (h : projectFolder tree dir = some bundle) : Holds tree dir project ↔ project = .ableton bundle := by
  constructor
  · rintro (hbundle | ⟨hproject, _, _, _⟩)
    · rw [h] at hbundle
      rw [Option.some.inj hbundle]
    · rw [h] at hproject
      cases hproject
  · rintro rfl
    exact .ableton h

theorem holds_iff_of_folder {listing : List (OsName × EntryKind)} {project : DiscoveredProject}
    (hlisting : tree.readDir dir = some listing) (hproject : projectFolder tree dir = none) :
    Holds tree dir project ↔ ∃ name kind format, (name, kind) ∈ listing ∧
      standaloneFormat (dir.child name, kind) = some format ∧
      project = .standalone (dir.child name) format := by
  constructor
  · rintro (hbundle | ⟨_, hlisting', hname, hformat⟩)
    · rw [hproject] at hbundle
      cases hbundle
    · rw [hlisting] at hlisting'
      cases hlisting'
      exact ⟨_, _, _, hname, hformat, rfl⟩
  · rintro ⟨name, kind, format, hname, hformat, rfl⟩
    exact .standalone hproject hlisting hname hformat

theorem not_holds_of_unreadable {project : DiscoveredProject} (h : tree.readDir dir = none) :
    ¬ Holds tree dir project := by
  rintro (hbundle | ⟨_, hlisting, _, _⟩)
  · rw [projectFolder, h] at hbundle
    cases hbundle
  · rw [h] at hlisting
    cases hlisting

theorem walk_unreadable (levels : Nat) (h : tree.readDir dir = none) :
    walk tree options levels dir = [] := by
  cases levels <;> rw [walk, look_unreadable h]

theorem walk_project (levels : Nat) {bundle : AbletonBundle}
    (h : projectFolder tree dir = some bundle) :
    walk tree options levels dir = [.ableton bundle] := by
  cases levels <;> rw [walk, look_project h]

/-- Nothing is searched below a folder that cannot be read, nor below a project folder. -/
theorem Searched.names_eq_nil {names : List OsName} (hsearched : Searched tree options dir names)
    (h : tree.readDir dir = none ∨ (projectFolder tree dir).isSome) : names = [] := by
  cases hsearched with
  | here => rfl
  | child hlisting hproject =>
    rcases h with h | h
    · rw [h] at hlisting
      cases hlisting
    · rw [hproject] at h
      cases h

theorem mem_walk_unreadable {levels : Nat} {project : DiscoveredProject}
    (h : tree.readDir dir = none) :
    project ∈ walk tree options levels dir ↔
      ∃ names, Lies tree options levels dir names project ∧ Offered levels names project := by
  rw [walk_unreadable levels h]
  refine iff_of_false List.not_mem_nil ?_
  rintro ⟨names, hlies, _⟩
  obtain rfl := hlies.searched.names_eq_nil (Or.inl h)
  exact not_holds_of_unreadable h hlies.holds

theorem mem_walk_project {levels : Nat} {project : DiscoveredProject} {bundle : AbletonBundle}
    (h : projectFolder tree dir = some bundle) :
    project ∈ walk tree options levels dir ↔
      ∃ names, Lies tree options levels dir names project ∧ Offered levels names project := by
  rw [walk_project levels h, List.mem_singleton]
  constructor
  · rintro rfl
    exact ⟨[], ⟨Nat.zero_le _, .here dir, .ableton h⟩, ⟨by simp, nofun⟩⟩
  · rintro ⟨names, hlies, _⟩
    obtain rfl := hlies.searched.names_eq_nil (Or.inr (by rw [h]; rfl))
    exact (holds_iff_of_project h).mp hlies.holds

/-- The walk offers the projects that lie in the folders that it reaches. -/
theorem mem_walk {levels : Nat} {project : DiscoveredProject} :
    project ∈ walk tree options levels dir ↔
      ∃ names, Lies tree options levels dir names project ∧ Offered levels names project := by
  induction levels generalizing dir with
  | zero =>
    cases hlisting : tree.readDir dir with
    | none => exact mem_walk_unreadable hlisting
    | some listing =>
      cases hproject : projectFolder tree dir with
      | some bundle => exact mem_walk_project hproject
      | none =>
        rw [walk, look_folder hlisting hproject]
        refine iff_of_false List.not_mem_nil ?_
        rintro ⟨names, hlies, hoffered⟩
        obtain rfl := List.length_eq_zero_iff.mp (Nat.le_zero.mp hlies.depth)
        obtain ⟨name, kind, format, _, _, rfl⟩ :=
          (holds_iff_of_folder hlisting hproject).mp hlies.holds
        exact absurd (hoffered.depth rfl) (lt_irrefl 0)
  | succ levels ih =>
    cases hlisting : tree.readDir dir with
    | none => exact mem_walk_unreadable hlisting
    | some listing =>
      cases hproject : projectFolder tree dir with
      | some bundle => exact mem_walk_project hproject
      | none =>
        rw [walk, look_folder hlisting hproject]
        dsimp only
        rw [List.mem_append, mem_files, List.mem_flatMap]
        constructor
        · rintro (hfile | ⟨child, hchild, hwalk⟩)
          · have hholds : Holds tree dir project := (holds_iff_of_folder hlisting hproject).mpr hfile
            exact ⟨[], ⟨Nat.zero_le _, .here dir, hholds⟩, ⟨by simp, fun _ => Nat.succ_pos _⟩⟩
          · obtain ⟨name, hname, htext, hpassed, rfl⟩ := mem_directories.mp hchild
            obtain ⟨names, hlies, hoffered⟩ := ih.mp hwalk
            refine ⟨name :: names, ⟨Nat.succ_le_succ hlies.depth,
              .child hlisting hproject hname hpassed hlies.searched, hlies.holds⟩, ⟨?_, ?_⟩⟩
            · exact List.forall_mem_cons.mpr ⟨htext, hoffered.named⟩
            · exact fun h => Nat.succ_lt_succ (hoffered.depth h)
        · rintro ⟨names, hlies, hoffered⟩
          cases hlies.searched with
          | here => exact Or.inl ((holds_iff_of_folder hlisting hproject).mp hlies.holds)
          | @child _ name names _ hlisting' _ hname hpassed hrest =>
            rw [hlisting] at hlisting'
            cases hlisting'
            obtain ⟨htext, hnamed⟩ := List.forall_mem_cons.mp hoffered.named
            refine Or.inr ⟨dir.child name, mem_directories.mpr ⟨name, hname, htext, hpassed, rfl⟩, ?_⟩
            refine ih.mpr ⟨names, ⟨Nat.le_of_succ_le_succ hlies.depth, hrest, hlies.holds⟩, hnamed, ?_⟩
            exact fun h => Nat.lt_of_succ_lt_succ (hoffered.depth h)

/-! Each project once. -/

theorem folderAt_eq (dir : HostPath) (names : List OsName) :
    folderAt dir names = dir ++ names.map .normal := by
  induction names generalizing dir with
  | nil => exact (List.append_nil dir).symm
  | cons name names ih =>
    change folderAt (dir.child name) names = _
    rw [ih, HostPath.child, List.append_assoc]
    rfl

theorem folderAt_injective {names names' : List OsName}
    (h : folderAt dir names = folderAt dir names') : names = names' := by
  rw [folderAt_eq, folderAt_eq] at h
  exact List.map_injective_iff.mpr (fun _ _ heq => Component.normal.inj heq)
    (List.append_cancel_left h)

theorem chooseLiveSetFrom_mem {root liveSet : HostPath} {sets : List HostPath}
    (h : chooseLiveSetFrom root sets = .ok liveSet) : liveSet ∈ sets := by
  unfold chooseLiveSetFrom at h
  split at h
  · cases h
  · cases h
    exact List.mem_singleton_self _
  · dsimp only at h
    split at h
    · rename_i hfind
      cases h
      exact List.mem_of_find?_eq_some hfind
    · cases h

/-- The Live Set lies in the project folder. -/
theorem liveSet_of_projectFolder {bundle : AbletonBundle} (h : projectFolder tree dir = some bundle) :
    ∃ name, bundle.liveSet = dir.child name := by
  obtain ⟨listing, _, hbundle⟩ := Option.bind_eq_some_iff.mp h
  split at hbundle
  · rename_i heq
    subst hbundle
    unfold fromRootEntries at heq
    dsimp only at heq
    split at heq
    · cases heq
    · obtain ⟨liveSet, hchosen, hbundle⟩ := bind_ok_iff.mp heq
      cases hbundle
      have hmem := (sortBy_perm _ _).mem_iff.mp (chooseLiveSetFrom_mem hchosen)
      obtain ⟨entry, hentry, rfl⟩ := List.mem_map.mp hmem
      obtain ⟨⟨name, kind⟩, _, rfl⟩ := List.mem_map.mp (List.mem_filter.mp hentry).1
      exact ⟨name, rfl⟩
  · cases hbundle

theorem Holds.parent_eq {project : DiscoveredProject} (h : Holds tree dir project) :
    project.projectFile.dropLast = dir := by
  have hchild : ∀ name : OsName, (dir.child name).dropLast = dir := fun _ => List.dropLast_concat
  cases h with
  | ableton hbundle =>
    obtain ⟨name, hname⟩ := liveSet_of_projectFolder hbundle
    rw [DiscoveredProject.projectFile, hname, hchild]
  | standalone => exact hchild _

/-- A project lies in one folder. -/
theorem Lies.names_unique {levels levels' : Nat} {names names' : List OsName}
    {project : DiscoveredProject} (h : Lies tree options levels dir names project)
    (h' : Lies tree options levels' dir names' project) : names = names' :=
  folderAt_injective (h.holds.parent_eq.symm.trans h'.holds.parent_eq)

section Listing
variable {listing : List (OsName × EntryKind)}
  (hdistinct : (listing.map fun entry => entry.1.bytes).Nodup)
include hdistinct

theorem entriesOf_distinct :
    (entriesOf dir listing).Pairwise fun left right => left.1 ≠ right.1 := by
  refine (entriesOf_untied dir hdistinct).imp ?_
  intro left right hne heq
  exact hne (heq ▸ Std.ReflCmp.compare_self)

theorem nodup_files : ((standaloneFiles (entriesOf dir listing)).map fun file =>
    DiscoveredProject.standalone file.1 file.2).Nodup := by
  have hfiles : ((entriesOf dir listing).filterMap fun entry =>
      (standaloneFormat entry).map fun format => (entry.1, format)).Nodup := by
    rw [List.Nodup, List.pairwise_filterMap]
    refine (entriesOf_distinct hdistinct).imp ?_
    intro left right hne file hfile file' hfile' heq
    obtain ⟨_, _, rfl⟩ := Option.map_eq_some_iff.mp hfile
    obtain ⟨_, _, rfl⟩ := Option.map_eq_some_iff.mp hfile'
    exact hne (Prod.mk.inj heq).1
  refine ((sortBy_perm _ _).nodup_iff.mpr hfiles).map ?_
  intro file file' heq
  obtain ⟨hpath, hformat⟩ := DiscoveredProject.standalone.inj heq
  exact Prod.ext hpath hformat

theorem nodup_directories : (scannableDirectories options (entriesOf dir listing)).Nodup := by
  refine (sortBy_perm _ _).nodup_iff.mpr ?_
  rw [List.Nodup, List.pairwise_map]
  exact (entriesOf_distinct hdistinct).filter _

end Listing

/-- The walk offers no project twice. -/
theorem nodup_walk (tree : DirectoryTree) (options : ScanOptions) (levels : Nat) (dir : HostPath) :
    (walk tree options levels dir).Nodup := by
  induction levels generalizing dir with
  | zero =>
    rw [walk]
    split
    · exact List.nodup_singleton _
    · exact List.nodup_nil
  | succ levels ih =>
    cases hlisting : tree.readDir dir with
    | none =>
      rw [walk_unreadable _ hlisting]
      exact List.nodup_nil
    | some listing =>
      cases hproject : projectFolder tree dir with
      | some bundle =>
        rw [walk_project _ hproject]
        exact List.nodup_singleton _
      | none =>
        have hdistinct := tree.distinct dir listing hlisting
        rw [walk, look_folder hlisting hproject]
        refine List.Nodup.append (nodup_files hdistinct) ?_ ?_
        · rw [List.nodup_flatMap]
          refine ⟨fun child _ => ih child, ?_⟩
          refine (nodup_directories hdistinct).imp_of_mem ?_
          intro left right hleft hright hne project hwalk hwalk'
          obtain ⟨name, _, _, _, rfl⟩ := mem_directories.mp hleft
          obtain ⟨name', _, _, _, rfl⟩ := mem_directories.mp hright
          obtain ⟨names, hlies, _⟩ := mem_walk.mp hwalk
          obtain ⟨names', hlies', _⟩ := mem_walk.mp hwalk'
          have hnames : name :: names = name' :: names' :=
            folderAt_injective (hlies.holds.parent_eq.symm.trans hlies'.holds.parent_eq)
          exact hne (congrArg dir.child (List.cons.inj hnames).1)
        · intro project hfile hwalk
          have hholds := (holds_iff_of_folder hlisting hproject).mpr (mem_files.mp hfile)
          obtain ⟨child, hchild, hwalk⟩ := List.mem_flatMap.mp hwalk
          obtain ⟨name, _, _, _, rfl⟩ := mem_directories.mp hchild
          obtain ⟨names, hlies, _⟩ := mem_walk.mp hwalk
          have hfolder : folderAt dir [] = folderAt dir (name :: names) :=
            hholds.parent_eq.symm.trans hlies.holds.parent_eq
          cases folderAt_injective hfolder

end Found

/-! The result. -/

/-- A project whose folder is searched, at most `maxDepth` levels below the root. -/
def IsProject (tree : DirectoryTree) (options : ScanOptions) (root : HostPath)
    (project : DiscoveredProject) : Prop :=
  ∃ names, Lies tree options options.maxDepth root names project

/-- The scan finds every project once, and nothing else. -/
def Exact (tree : DirectoryTree) (options : ScanOptions) (root : HostPath) : Prop :=
  (scanForProjects tree options root).Nodup ∧
    ∀ project, project ∈ scanForProjects tree options root ↔ IsProject tree options root project

/-- No project file lies in a folder of the last level, and no project in a folder whose name, or
that of a folder above it, is not UTF-8. -/
def NoneMissed (tree : DirectoryTree) (options : ScanOptions) (root : HostPath) : Prop :=
  ∀ names project, Lies tree options options.maxDepth root names project →
    Offered options.maxDepth names project

section Result
variable (tree : DirectoryTree) (options : ScanOptions) (root : HostPath)

/-- What the scan returns while no budget is reached. -/
theorem scanForProjects_perm (h : (scanFrom tree options root).reached options = false) :
    (scanForProjects tree options root).Perm (walk tree options options.maxDepth root) := by
  have hfound : (scanFrom tree options root).found = walk tree options options.maxDepth root :=
    scanInto_found h
  rw [Scan.reached, Bool.or_eq_false_iff, decide_eq_false_iff_not] at h
  have hperm := sortBy_perm (fun left right : DiscoveredProject =>
    comparePaths left.projectFile right.projectFile) (scanFrom tree options root).found
  rw [scanForProjects, List.take_of_length_le (by rw [hperm.length_eq]; omega), ← hfound]
  exact hperm

theorem exact_iff (h : (scanFrom tree options root).reached options = false) :
    Exact tree options root ↔ NoneMissed tree options root := by
  have hperm := scanForProjects_perm tree options root h
  constructor
  · rintro ⟨_, hexact⟩ names project hlies
    have hwalk := hperm.mem_iff.mp ((hexact project).mpr ⟨names, hlies⟩)
    obtain ⟨names', hlies', hoffered⟩ := mem_walk.mp hwalk
    rw [hlies.names_unique hlies']
    exact hoffered
  · intro hnone
    refine ⟨hperm.nodup_iff.mpr (nodup_walk tree options _ root), ?_⟩
    intro project
    rw [hperm.mem_iff, mem_walk]
    constructor
    · rintro ⟨names, hlies, _⟩
      exact ⟨names, hlies⟩
    · rintro ⟨names, hlies⟩
      exact ⟨names, hlies, hnone names project hlies⟩

/-- The result does not depend on the order of the entries, the budgets hold, and while none is
reached the scan is exact: all of it when nothing is missed. -/
theorem scan_exact_iff :
    ((∀ tree', tree.Relisted tree' →
        scanForProjects tree' options root = scanForProjects tree options root) ∧
      (scanForProjects tree options root).length ≤ options.maxProjects ∧
      (scanFrom tree options root).visitedDirectories ≤ options.maxDirectories ∧
      ((scanFrom tree options root).reached options = false → Exact tree options root)) ↔
      ((scanFrom tree options root).reached options = false → NoneMissed tree options root) := by
  constructor
  · rintro ⟨_, _, _, hexact⟩ hreached
    exact (exact_iff tree options root hreached).mp (hexact hreached)
  · intro hnone
    refine ⟨fun tree' h => scanForProjects_relisted h options root, List.length_take_le _ _,
      scanInto_visited tree options _ root (Nat.zero_le _), ?_⟩
    intro hreached
    exact (exact_iff tree options root hreached).mpr (hnone hreached)

end Result

/-! A project file in a folder of the last level. -/

def musicRoot : HostPath := [.rootDir, .normal (.text "music")]

def albumFolder : HostPath := musicRoot.child (.text "album")

/-- One folder with one project file. -/
def albumTree : DirectoryTree where
  readDir path :=
    if path = musicRoot then some [(.text "album", .folder)]
    else if path = albumFolder then some [(.text "Song.flp", .file)]
    else none
  distinct := by
    intro path listing h
    split at h
    · cases h
      exact List.nodup_singleton _
    · split at h
      · cases h
        exact List.nodup_singleton _
      · cases h

def oneLevel : ScanOptions := { maxDepth := 1 }

theorem album_lies : Lies albumTree oneLevel 1 musicRoot [.text "album"]
    (.standalone (albumFolder.child (.text "Song.flp")) .flStudio) where
  depth := le_rfl
  searched := by
    have hroot : albumTree.readDir musicRoot = some [(.text "album", .folder)] := rfl
    have hlisted : (OsName.text "album", EntryKind.folder) ∈ [(.text "album", .folder)] :=
      List.mem_singleton_self _
    have hname : ¬ PassedOver oneLevel (.text "album") := by
      rw [PassedOver]
      decide +kernel
    exact .child hroot (by decide +kernel) hlisted hname (.here albumFolder)
  holds := by
    have halbum : albumTree.readDir albumFolder = some [(.text "Song.flp", .file)] := by
      decide +kernel
    exact .standalone (by decide +kernel) halbum (List.mem_singleton_self _) (by decide +kernel)

/-- The song in the album is not found. -/
theorem song_in_album_missed : (scanFrom albumTree oneLevel musicRoot).reached oneLevel = false ∧
    ¬ Exact albumTree oneLevel musicRoot := by
  have hreached : (scanFrom albumTree oneLevel musicRoot).reached oneLevel = false := by
    decide +kernel
  refine ⟨hreached, ?_⟩
  intro hexact
  have hoffered := (exact_iff albumTree oneLevel musicRoot hreached).mp hexact _ _ album_lies
  exact absurd (hoffered.depth rfl) (lt_irrefl 1)

end AuruPm.Discovery
