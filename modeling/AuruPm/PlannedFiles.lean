import AuruPm.AssetPlan
import AuruPm.Dawproject
import AuruPm.ManifestEntries

/-!
# What planning takes up

Every file that a plan stores lies at a bundle path of its own, and each reference that the
planner takes up is either among those files or reported.
-/

namespace AuruPm

set_option autoImplicit false

open SortedAssoc

/-! Free names. -/

theorem suffixedPath_injective (folder fileName : String) :
    Function.Injective (suffixedPath folder fileName) := by
  intro i j h
  simp only [suffixedPath, String.append_left_inj, String.append_right_inj] at h
  have hdigits : Nat.toDigits 10 i = Nat.toDigits 10 j := by
    rw [← toList_toString_nat, h, toList_toString_nat]
  rw [← Nat.ofDigitChars_ten_toDigits (n := i), hdigits, Nat.ofDigitChars_ten_toDigits]

theorem firstFree_mem {folder fileName : String} {taken : List String} {fuel suffix : Nat}
    (h : firstFree folder fileName taken fuel suffix ∈ taken) :
    ∀ i ≤ fuel, suffixedPath folder fileName (suffix + i) ∈ taken := by
  induction fuel generalizing suffix with
  | zero =>
    intro i hi
    rw [Nat.le_zero.mp hi]
    exact h
  | succ fuel ih =>
    unfold firstFree at h
    split at h
    · rename_i hmem
      intro i hi
      cases i with
      | zero => exact hmem
      | succ i =>
        have hlater := ih h i (by omega)
        rwa [Nat.add_right_comm] at hlater
    · rename_i hfree
      exact absurd h hfree

/-- More paths are tried than are taken. -/
theorem freePath_not_mem (folder fileName : String) (taken : List String) :
    freePath folder fileName taken ∉ taken := by
  intro h
  unfold freePath at h
  split at h
  · have hall := firstFree_mem h
    let tried := (List.range (taken.length + 2)).map fun i => suffixedPath folder fileName (2 + i)
    have hnodup : tried.Nodup := List.nodup_range.map fun i j hij => by
      have := suffixedPath_injective folder fileName hij
      omega
    have hsub : tried ⊆ taken := by
      intro path hpath
      obtain ⟨i, hi, rfl⟩ := List.mem_map.mp hpath
      have := List.mem_range.mp hi
      exact hall i (by omega)
    have hlength := (List.subperm_of_subset hnodup hsub).length_le
    simp only [tried, List.length_map, List.length_range] at hlength
    omega
  · rename_i hfree
    exact hfree h

/-! The files of a folder. -/

namespace Ableton

/-- A path that goes down from the root by names that a folder can hold. -/
def Below (root path : HostPath) : Prop :=
  ∃ names : List OsName, path = root ++ names.map .normal ∧ ∀ name ∈ names, name.Plain

theorem Below.refl (root : HostPath) : Below root root :=
  ⟨[], (List.append_nil root).symm, fun _ h => nomatch h⟩

theorem Below.child {root path : HostPath} (h : Below root path) {name : OsName}
    (hname : name.Plain) : Below root (path.child name) := by
  obtain ⟨names, rfl, hplain⟩ := h
  refine ⟨names ++ [name], ?_, fun other hother => ?_⟩
  · rw [HostPath.child, List.map_append, List.map_singleton, List.append_assoc]
  · rcases List.mem_append.mp hother with hother | hother
    · exact hplain other hother
    · rw [List.mem_singleton.mp hother]
      exact hname

namespace AbletonBundle

theorem fileAt_some {bundle : AbletonBundle} {policy : BundlePolicy} {path : HostPath} {length : Nat}
    {file : BundleFile} (h : bundle.fileAt policy path length = some file) :
    file.source = path ∧ bundle.relativePath path = some file.relative := by
  simp only [fileAt, Option.bind_eq_bind, Option.bind_eq_some_iff] at h
  obtain ⟨relative, hrelative, kind, -, h⟩ := h
  split at h
  · cases h
  · cases h
    exact ⟨rfl, hrelative⟩

/-- A captured file lies below the root, at its relative path. -/
def Holds (bundle : AbletonBundle) (file : BundleFile) : Prop :=
  Below bundle.root file.source ∧ bundle.relativePath file.source = some file.relative

mutual
theorem walkItem_holds {bundle : AbletonBundle} {policy : BundlePolicy} {path : HostPath}
    {item : Item} {files : List BundleFile} (h : bundle.walkItem policy path item = .ok files)
    (hproper : item.Proper) (hbelow : Below bundle.root path) :
    ∀ file ∈ files, bundle.Holds file := by
  cases item with
  | link =>
    cases h
    exact fun _ h => nomatch h
  | failing e => cases h
  | folder listing =>
    simp only [walkItem] at h
    exact walk_holds h hproper hbelow
  | file length =>
    cases h
    intro file hfile
    obtain ⟨hsource, hrelative⟩ := fileAt_some (Option.mem_toList.mp hfile)
    unfold Holds
    rw [hsource]
    exact ⟨hbelow, hrelative⟩
theorem walk_holds {bundle : AbletonBundle} {policy : BundlePolicy} {dir : HostPath}
    {listing : Listing} {files : List BundleFile} (h : bundle.walk policy dir listing = .ok files)
    (hproper : listing.Proper) (hbelow : Below bundle.root dir) :
    ∀ file ∈ files, bundle.Holds file := by
  cases listing with
  | done =>
    cases h
    exact fun _ h => nomatch h
  | broken e rest => cases h
  | entry name item rest =>
    obtain ⟨hname, -, hitem, hrest⟩ := hproper
    simp only [walk, bind_ok_iff] at h
    obtain ⟨here, hhere, more, hmore, h⟩ := h
    cases h
    intro file hfile
    rcases List.mem_append.mp hfile with hfile | hfile
    · exact walkItem_holds hhere hitem (hbelow.child hname) file hfile
    · exact walk_holds hmore hrest hbelow file hfile
end

theorem enumerate_holds {Bytes : Type} {m : Machine Bytes} {bundle : AbletonBundle}
    {policy : BundlePolicy} {files : List BundleFile} (h : bundle.enumerate m policy = .ok files) :
    ∀ file ∈ files, bundle.Holds file := by
  simp only [enumerate, bind_ok_iff] at h
  obtain ⟨listing, hlisting, walked, hwalked, h⟩ := h
  cases h
  intro file hfile
  rw [List.mem_insertionSort] at hfile
  exact walk_holds hwalked (m.proper _ _ hlisting) (.refl _) file hfile

theorem mapM_toStr {names : List OsName} {parts : List String}
    (h : names.mapM OsName.toStr = some parts) : names = parts.map .text := by
  rw [mapM_some_iff] at h
  induction h with
  | nil => rfl
  | @cons name part names parts hname _ ih =>
    cases name with
    | text text =>
      cases hname
      rw [ih, List.map_cons]
    | raw bytes => cases hname

/-- The parts of the relative path of a file below the root. -/
theorem relativePath_below {bundle : AbletonBundle} {path : HostPath} {relative : String}
    (hbelow : Below bundle.root path) (h : bundle.relativePath path = some relative) :
    ∃ parts : List String, path = bundle.root ++ parts.map (.normal ∘ .text) ∧ parts ≠ [] ∧
      (∀ part ∈ parts, OsName.Plain (.text part)) ∧ relative = "/".intercalate parts := by
  obtain ⟨names, rfl, hplain⟩ := hbelow
  simp only [relativePath, HostPath.startsWith, List.isPrefixOf_iff_prefix.mpr
    (List.prefix_append _ _), Bool.not_true, Bool.false_eq_true, if_false, List.drop_left,
    Option.bind_eq_bind, Option.bind_eq_some_iff] at h
  obtain ⟨parts, hparts, h⟩ := h
  have hparts : names.mapM OsName.toStr = some parts := by
    rw [← hparts, List.mapM_map]
    rfl
  obtain rfl := mapM_toStr hparts
  split at h
  · cases h
  · rename_i hne
    cases h
    refine ⟨parts, by rw [List.map_map], hne, fun part hpart => ?_, rfl⟩
    exact hplain _ (List.mem_map_of_mem hpart)

theorem splitOn_relative {parts : List String} (hne : parts ≠ [])
    (hplain : ∀ part ∈ parts, OsName.Plain (.text part)) :
    ("/".intercalate parts).toList.splitOn '/' = parts.map String.toList := by
  rw [String.toList_intercalate]
  refine List.splitOn_intercalate '/' (fun part hpart => ?_) (by simpa using hne)
  obtain ⟨text, htext, rfl⟩ := List.mem_map.mp hpart
  exact (hplain text htext).2

/-- A relative path belongs to one file. -/
theorem Holds.source_eq {bundle : AbletonBundle} {file file' : BundleFile} (h : bundle.Holds file)
    (h' : bundle.Holds file') (heq : file.relative = file'.relative) :
    file.source = file'.source := by
  obtain ⟨parts, hsource, hne, hplain, hrelative⟩ := relativePath_below h.1 h.2
  obtain ⟨parts', hsource', hne', hplain', hrelative'⟩ := relativePath_below h'.1 h'.2
  have hsplit := splitOn_relative hne hplain
  rw [← hrelative, heq, hrelative', splitOn_relative hne' hplain'] at hsplit
  have hparts : parts' = parts :=
    List.map_injective_iff.mpr (fun a b hab => String.toList_inj.mp hab) hsplit
  rw [hsource, hsource', hparts]

end AbletonBundle

/-! Gathering. -/

/-- The assets lie under their own paths, which are taken. -/
structure Gathering.Sound (g : Gathering) : Prop where
  sorted : Sorted g.assets
  keyed : ∀ e ∈ g.assets, e.2.bundlePath = e.1
  taken : ∀ e ∈ g.assets, e.1 ∈ g.taken

/-- What one gathering has, the other one has as well. -/
structure Gathering.Within (g g' : Gathering) : Prop where
  assets : ∀ e ∈ g.assets, e ∈ g'.assets
  unresolved : ∀ u ∈ g.unresolved, u ∈ g'.unresolved

theorem Gathering.Within.refl (g : Gathering) : g.Within g := ⟨fun _ h => h, fun _ h => h⟩

theorem Gathering.Within.trans {g g' g'' : Gathering} (h : g.Within g') (h' : g'.Within g'') :
    g.Within g'' :=
  ⟨fun e he => h'.assets e (h.assets e he), fun u hu => h'.unresolved u (h.unresolved u hu)⟩

theorem Gathering.Sound.add {g : Gathering} (h : g.Sound) (file : PlannedFile) :
    Gathering.Sound { g with
      assets := SortedAssoc.insert file.bundlePath file g.assets
      taken := file.bundlePath :: g.taken } where
  sorted := sorted_insert h.sorted _ _
  keyed e he := by
    rcases mem_insert he with rfl | he
    · rfl
    · exact h.keyed e he
  taken e he := by
    rcases mem_insert he with rfl | he
    · exact List.mem_cons_self
    · exact List.mem_cons_of_mem _ (h.taken e he)

theorem Gathering.Sound.within_add {g : Gathering} (h : g.Sound) (file : PlannedFile)
    (hfree : file.bundlePath ∉ g.taken) :
    g.Within { g with
      assets := SortedAssoc.insert file.bundlePath file g.assets
      taken := file.bundlePath :: g.taken } where
  assets e he := mem_insert_of_ne h.sorted he fun heq => hfree (heq ▸ h.taken e he)
  unresolved _ hu := hu

section Gather
variable {Bytes : Type} {m : Machine Bytes} {bundle : AbletonBundle} {policy : BundlePolicy}
variable {enumerated : List HostPath}

/-- The file that a reference leads to. -/
def fileOf (m : Machine Bytes) (bundle : AbletonBundle) (policy : BundlePolicy) (r : AssetRef) :
    Option HostPath :=
  (bundle.resolve m policy r.relativePath r.absolutePath).toOption.join

/-- The reference is reported, or its file is one of the folder's or gathered. -/
def Gathering.Accounts (g : Gathering) (enumerated : List HostPath) (name : String)
    (file : Option HostPath) : Prop :=
  name ∈ g.unresolved.map UnresolvedAsset.reference ∨
    ∃ path, file = some path ∧ (path ∈ enumerated ∨ ∃ e ∈ g.assets, e.2.source = path)

theorem Gathering.Accounts.within {g g' : Gathering} {name : String} {file : Option HostPath}
    (h : g.Accounts enumerated name file) (hwithin : g.Within g') :
    g'.Accounts enumerated name file := by
  rcases h with h | ⟨path, hfile, h⟩
  · obtain ⟨u, hu, rfl⟩ := List.mem_map.mp h
    exact Or.inl (List.mem_map_of_mem (hwithin.unresolved u hu))
  · refine Or.inr ⟨path, hfile, h.imp_right ?_⟩
    intro ⟨e, he, hsource⟩
    exact ⟨e, hwithin.assets e he, hsource⟩

theorem Gathering.accounts_report (g : Gathering) (name : String) (refClass : RefClass)
    (file : Option HostPath) :
    Gathering.Accounts { g with unresolved := g.unresolved ++ [⟨name, refClass⟩] } enumerated name
      file := by
  refine Or.inl (List.mem_map.mpr ⟨⟨name, refClass⟩, ?_, rfl⟩)
  exact List.mem_append_right _ (List.mem_singleton.mpr rfl)

theorem Gathering.within_report (g : Gathering) (u : UnresolvedAsset) :
    g.Within { g with unresolved := g.unresolved ++ [u] } :=
  ⟨fun _ h => h, fun _ h => List.mem_append_left _ h⟩

/-- One reference with a name is reported, in the folder or gathered, and nothing is dropped. -/
theorem gather_spec {g g' : Gathering} {r : AssetRef}
    (h : gather m bundle policy enumerated g r = .ok g') (hg : g.Sound) :
    g'.Sound ∧ g.Within g' ∧ (r.fileName.isSome →
      g'.Accounts enumerated r.dedupKey (fileOf m bundle policy r)) := by
  simp only [gather, bind_ok_iff] at h
  obtain ⟨found, hfound, h⟩ := h
  have hfile : fileOf m bundle policy r = found := by
    rw [fileOf, hfound]
    rfl
  rw [hfile]
  cases found with
  | none =>
    cases h
    exact ⟨⟨hg.sorted, hg.keyed, hg.taken⟩, g.within_report _, fun _ => g.accounts_report _ _ _⟩
  | some source =>
    simp only at h
    split at h
    · split at h
      · rename_i hin
        cases h
        exact ⟨hg, .refl g, fun _ => Or.inr ⟨source, rfl, Or.inl hin⟩⟩
      · cases h
        exact ⟨⟨hg.sorted, hg.keyed, hg.taken⟩, g.within_report _, fun _ => g.accounts_report _ _ _⟩
    · split at h
      · rename_i hnone
        cases h
        refine ⟨hg, .refl g, fun hsome => ?_⟩
        rw [hnone] at hsome
        cases hsome
      · rename_i fileName hname
        cases h
        have hfree : allocatePath fileName g.taken ∉ g.taken := freePath_not_mem _ _ _
        let file : PlannedFile :=
          ⟨source, allocatePath fileName g.taken, kindFor fileName, some r.dedupKey⟩
        refine ⟨hg.add file, hg.within_add file hfree, fun _ => Or.inr ⟨source, rfl, Or.inr ?_⟩⟩
        exact ⟨_, mem_insert_self file.bundlePath file g.assets, rfl⟩

theorem gatherAll_spec {refs : List AssetRef} {g g' : Gathering}
    (h : gatherAll m bundle policy enumerated g refs = .ok g') (hg : g.Sound) :
    g'.Sound ∧ g.Within g' ∧ ∀ r ∈ refs, r.fileName.isSome →
      g'.Accounts enumerated r.dedupKey (fileOf m bundle policy r) := by
  induction refs generalizing g with
  | nil =>
    cases h
    exact ⟨hg, .refl _, fun _ h => nomatch h⟩
  | cons r refs ih =>
    simp only [gatherAll, bind_ok_iff] at h
    obtain ⟨next, hnext, h⟩ := h
    obtain ⟨hsound, hwithin, haccounts⟩ := gather_spec hnext hg
    obtain ⟨hsound', hwithin', haccounts'⟩ := ih h hsound
    refine ⟨hsound', hwithin.trans hwithin', fun other hother hname => ?_⟩
    rcases List.mem_cons.mp hother with rfl | hother
    · exact (haccounts hname).within hwithin'
    · exact haccounts' other hother hname

/-- The folder's files, each under its relative path. -/
theorem fromFolder_files {files : List BundleFile} {g : Gathering}
    (h : fromFolder m bundle policy = (files, g)) :
    Sorted g.assets ∧ g.taken = g.assets.map Prod.fst ∧
      (∀ e ∈ g.assets, ∃ file ∈ files,
        e = (file.relative, ⟨file.source, file.relative, file.kind, none⟩)) ∧
      ∀ file ∈ files, ∃ e ∈ g.assets, e.1 = file.relative := by
  unfold fromFolder at h
  split at h
  · cases h
    exact ⟨List.Pairwise.nil, rfl, (fun _ h => nomatch h), fun _ h => nomatch h⟩
  · cases h
    refine ⟨sorted_foldl_insert _ List.Pairwise.nil, rfl,
      (fun e he => (mem_foldl_insert he).resolve_left fun h => nomatch h), fun file hfile => ?_⟩
    let value (file : BundleFile) : PlannedFile :=
      ⟨file.source, file.relative, file.kind, none⟩
    have hkey : file.relative ∈ (files.foldl (fun assets file =>
        SortedAssoc.insert file.relative (value file) assets) []).map Prod.fst :=
      key_mem_foldl_insert (Or.inr (List.mem_map_of_mem hfile))
    exact List.mem_map.mp hkey

theorem fromFolder_sound {files : List BundleFile} {g : Gathering}
    (h : fromFolder m bundle policy = (files, g)) : g.Sound := by
  obtain ⟨hsorted, htaken, hassets, -⟩ := fromFolder_files h
  refine ⟨hsorted, fun e he => ?_, fun e he => htaken ▸ List.mem_map_of_mem he⟩
  obtain ⟨file, -, rfl⟩ := hassets e he
  rfl

/-- Two entries of one relative path are one file. -/
theorem fromFolder_sources {files : List BundleFile} {g : Gathering}
    (h : fromFolder m bundle policy = (files, g)) :
    ∀ file ∈ files, ∃ e ∈ g.assets, e.2.source = file.source := by
  intro file hfile
  obtain ⟨-, -, hassets, hfiles⟩ := fromFolder_files h
  obtain ⟨e, he, hkey⟩ := hfiles file hfile
  obtain ⟨other, hother, rfl⟩ := hassets e he
  unfold fromFolder at h
  split at h
  · cases h
    cases hfile
  · rename_i walked hwalked
    cases h
    have hholds := AbletonBundle.enumerate_holds hwalked
    exact ⟨_, he, (hholds other hother).source_eq (hholds file hfile) hkey⟩

end Gather

end Ableton

/-! What a commit takes up. -/

/-- A file that a commit takes up: its name in a report, and where it is found. -/
structure TakenFile where
  name : String
  source : Option HostPath
  deriving DecidableEq

/-- It is reported or planned. -/
def TakenFile.PlannedIn (r : TakenFile) (files : List PlannedFile) (missing : List String) : Prop :=
  r.name ∈ missing ∨ ∃ file ∈ files, r.source = some file.source

namespace Ableton

section Taken
variable {Bytes : Type} (m : Machine Bytes) (bundle : AbletonBundle) (policy : BundlePolicy)

/-- The files that the folder itself contributes. -/
def captured : List HostPath := (fromFolder m bundle policy).1.map BundleFile.source

/-- A reference to gather that has a name, or one to a file that the folder contributes. -/
def takesUp (refs : List AssetRef) (r : AssetRef) : Bool :=
  (decide (r ∈ outside policy refs) && r.fileName.isSome) ||
    (fileOf m bundle policy r).any fun path => decide (path ∈ captured m bundle policy)

/-- The folder's files, or the folder itself when it cannot be read. -/
def folderTaken : List TakenFile :=
  (fromFolder m bundle policy).2.unresolved.map (fun u => ⟨u.reference, none⟩) ++
    (fromFolder m bundle policy).1.map fun file => ⟨file.relative, some file.source⟩

def taken (root : XmlElement) : List TakenFile :=
  folderTaken m bundle policy ++
    ((collect root).filter (takesUp m bundle policy (collect root))).map fun r =>
      ⟨r.dedupKey, fileOf m bundle policy r⟩

variable {m bundle policy}

theorem plan_spec {root : XmlElement} {planned : AssetPlan}
    (h : plan m bundle root policy = .ok planned) :
    (planned.assets.map PlannedFile.bundlePath).Nodup ∧
      ∀ r ∈ taken m bundle policy root,
        r.PlannedIn planned.assets (planned.unresolved.map UnresolvedAsset.reference) := by
  obtain ⟨files, g, hfolder⟩ : ∃ files g, fromFolder m bundle policy = (files, g) := ⟨_, _, rfl⟩
  simp only [plan, hfolder, bind_ok_iff] at h
  obtain ⟨g', hgather, h⟩ := h
  cases h
  have hsound := fromFolder_sound hfolder
  have hfiles := fromFolder_sources hfolder
  obtain ⟨hsound', hwithin, haccounts⟩ := gatherAll_spec hgather hsound
  have hpaths : (g'.assets.map Prod.snd).map PlannedFile.bundlePath = g'.assets.map Prod.fst := by
    rw [List.map_map]
    exact List.map_congr_left fun e he => hsound'.keyed e he
  have hcaptured : ∀ path ∈ files.map BundleFile.source, ∃ file ∈ g'.assets.map Prod.snd,
      some path = some file.source := by
    intro path hpath
    obtain ⟨file, hfile, rfl⟩ := List.mem_map.mp hpath
    obtain ⟨e, he, hsource⟩ := hfiles file hfile
    exact ⟨e.2, List.mem_map_of_mem (hwithin.assets e he), congrArg some hsource.symm⟩
  refine ⟨?_, fun r hr => ?_⟩
  · rw [hpaths]
    exact List.pairwise_map.mpr (hsound'.sorted.imp fun hlt => ne_of_lt hlt)
  · rw [taken, folderTaken, hfolder, List.mem_append, List.mem_append] at hr
    rcases hr with (hr | hr) | hr
    · obtain ⟨u, hu, rfl⟩ := List.mem_map.mp hr
      exact Or.inl (List.mem_map_of_mem (hwithin.unresolved u hu))
    · obtain ⟨file, hfile, rfl⟩ := List.mem_map.mp hr
      exact Or.inr (hcaptured file.source (List.mem_map_of_mem hfile))
    · obtain ⟨r, hmem, rfl⟩ := List.mem_map.mp hr
      obtain ⟨-, htakes⟩ := List.mem_filter.mp hmem
      rw [takesUp, captured, hfolder, Bool.or_eq_true, Bool.and_eq_true, decide_eq_true_iff,
        Option.any_eq_true] at htakes
      rcases htakes with ⟨houtside, hname⟩ | ⟨path, hfile, hpath⟩
      · rcases haccounts r houtside hname with hmissing | ⟨path, hfile, hin | ⟨e, he, hsource⟩⟩
        · exact Or.inl hmissing
        · obtain ⟨file, hmem, hsource⟩ := hcaptured path hin
          exact Or.inr ⟨file, hmem, hfile.trans hsource⟩
        · exact Or.inr ⟨e.2, List.mem_map_of_mem he, hfile.trans (congrArg some hsource.symm)⟩
      · obtain ⟨file, hmem, hsource⟩ := hcaptured path (of_decide_eq_true hpath)
        exact Or.inr ⟨file, hmem, hfile.trans hsource⟩

end Taken

end Ableton

namespace FlStudio

section Taken
variable {Bytes : Type} (m : Machine Bytes)

def taken (refs : List AssetRef) (projectDirectory : Option HostPath)
    (aliases : List Ableton.PathAlias) : List TakenFile :=
  ((distinct [] refs).filter fun r => r.refClass.shouldVendor).map fun r =>
    ⟨r.recordedPath, (findSource m (distinct [] refs) projectDirectory aliases r).toOption⟩

variable {m}

theorem planRefs_spec {references : List AssetRef} {projectDirectory : Option HostPath}
    {aliases : List Ableton.PathAlias} {used : List String} {refs : List AssetRef}
    {planned : AssetPlan} (h : planRefs m references projectDirectory aliases used refs = planned) :
    (planned.assets.map PlannedFile.bundlePath).Nodup ∧
      (∀ file ∈ planned.assets, file.bundlePath ∉ used) ∧
      ∀ r ∈ refs, r.refClass.shouldVendor = true →
        TakenFile.PlannedIn
          ⟨r.recordedPath, (findSource m references projectDirectory aliases r).toOption⟩
          planned.assets (planned.unresolved.map UnresolvedAsset.recordedPath) := by
  induction refs generalizing used planned with
  | nil =>
    subst h
    exact ⟨List.nodup_nil, (fun _ h => nomatch h), fun _ h => nomatch h⟩
  | cons r refs ih =>
    unfold planRefs at h
    split at h
    · rename_i hkept
      obtain ⟨hnodup, hfree, hplanned⟩ := ih
          (rfl : planRefs m references projectDirectory aliases used refs = _)
      have hothers : ∀ other ∈ r :: refs, other.refClass.shouldVendor = true → other ∈ refs := by
        intro other hother hvendor
        rcases List.mem_cons.mp hother with rfl | hother
        · rw [hkept] at hvendor
          cases hvendor
        · exact hother
      simp only at h
      split at h
      · subst h
        refine ⟨hnodup, hfree, fun other hother hvendor => ?_⟩
        exact (hplanned other (hothers other hother hvendor) hvendor).imp_left
          (List.mem_cons_of_mem _)
      · subst h
        exact ⟨hnodup, hfree, fun other hother hvendor =>
          hplanned other (hothers other hother hvendor) hvendor⟩
    · split at h
      · rename_i reason hsource
        obtain ⟨hnodup, hfree, hplanned⟩ := ih
          (rfl : planRefs m references projectDirectory aliases used refs = _)
        subst h
        refine ⟨hnodup, hfree, fun other hother hvendor => ?_⟩
        rcases List.mem_cons.mp hother with rfl | hother
        · exact Or.inl List.mem_cons_self
        · exact (hplanned other hother hvendor).imp_left (List.mem_cons_of_mem _)
      · rename_i source hsource
        obtain ⟨hnodup, hfree, hplanned⟩ := ih rfl
        subst h
        refine ⟨List.nodup_cons.mpr ⟨?_, hnodup⟩, ?_, fun other hother hvendor => ?_⟩
        · intro hmem
          obtain ⟨file, hfile, hpath⟩ := List.mem_map.mp hmem
          exact hfree file hfile (hpath ▸ List.mem_cons_self)
        · intro file hfile
          rcases List.mem_cons.mp hfile with rfl | hfile
          · exact freePath_not_mem _ _ _
          · exact fun hused => hfree file hfile (List.mem_cons_of_mem _ hused)
        · rcases List.mem_cons.mp hother with rfl | hother
          · exact Or.inr ⟨_, List.mem_cons_self, by rw [hsource]; rfl⟩
          · refine (hplanned other hother hvendor).imp_right ?_
            intro ⟨file, hfile, heq⟩
            exact ⟨file, List.mem_cons_of_mem _ hfile, heq⟩

theorem planFromDirectory_spec {refs : List AssetRef} {projectDirectory : Option HostPath}
    {aliases : List Ableton.PathAlias} {planned : AssetPlan}
    (h : planFromDirectory m refs projectDirectory aliases = planned) :
    (planned.assets.map PlannedFile.bundlePath).Nodup ∧
      ∀ r ∈ taken m refs projectDirectory aliases,
        r.PlannedIn planned.assets (planned.unresolved.map UnresolvedAsset.recordedPath) := by
  subst h
  obtain ⟨hnodup, -, hplanned⟩ := planRefs_spec
    (rfl : planRefs m (distinct [] refs) projectDirectory aliases [] (distinct [] refs) = _)
  refine ⟨((List.perm_insertionSort _ _).map _).nodup_iff.mpr hnodup, fun r hr => ?_⟩
  obtain ⟨r, hkept, rfl⟩ := List.mem_map.mp hr
  obtain ⟨hmem, hvendor⟩ := List.mem_filter.mp hkept
  refine (hplanned r hmem hvendor).imp_right ?_
  intro ⟨file, hfile, heq⟩
  exact ⟨file, (List.mem_insertionSort _).mpr hfile, heq⟩

end Taken

end FlStudio

end AuruPm
