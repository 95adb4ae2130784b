import AuruPm.RewriteAgreement

/-!
# The names of captured files

Captured files lie at paths of their own. The plan for a set names its files alike for every order
of the references; the plan for an FL Studio project hands the names out in the order of the
project, and takes up the same files for every order.
-/

namespace AuruPm

set_option autoImplicit false

open SortedAssoc FirstOf

/-! Live Sets. -/

namespace Ableton

/-- What planning reads of a reference. -/
def AssetRef.place (r : AssetRef) : AssetRef := { r with relativePathType := .missing }

/-- The references of one set in another order, where one file is written in one way. -/
structure Reordered (policy : BundlePolicy) (refs refs' : List AssetRef) : Prop where
  perm : (refs.map AssetRef.place).Perm (refs'.map AssetRef.place)
  alike : Alike AssetRef.place AssetRef.dedupKey (gatherable policy refs)

theorem Reordered.gatherable_perm {policy : BundlePolicy} {refs refs' : List AssetRef}
    (h : Reordered policy refs refs') :
    ((gatherable policy refs).map AssetRef.place).Perm
      ((gatherable policy refs').map AssetRef.place) := by
  have hplaces : ∀ refs : List AssetRef, (gatherable policy refs).map AssetRef.place =
      gatherable policy (refs.map AssetRef.place) := by
    intro refs
    rw [gatherable, gatherable, List.filter_map]
    rfl
  rw [hplaces, hplaces]
  exact h.perm.filter _

theorem Reordered.outside_place {policy : BundlePolicy} {refs refs' : List AssetRef}
    (h : Reordered policy refs refs') :
    (outside policy refs).map AssetRef.place = (outside policy refs').map AssetRef.place := by
  rw [outside, outside, outsideFrom_eq_firsts, outsideFrom_eq_firsts]
  exact insertionSort_look (nodup_firsts [] _) (firsts_perm h.alike h.gatherable_perm)

section Plan
variable {Bytes : Type} {m : Machine Bytes} {bundle : AbletonBundle} {policy : BundlePolicy}

theorem gatherAll_place (enumerated : List HostPath) (g : Gathering) (refs : List AssetRef) :
    gatherAll m bundle policy enumerated g (refs.map AssetRef.place) =
      gatherAll m bundle policy enumerated g refs := by
  induction refs generalizing g with
  | nil => rfl
  | cons r refs ih =>
    rw [List.map_cons, gatherAll, gatherAll]
    exact congrArg _ (funext ih)

theorem plan_reordered {root root' : XmlElement}
    (h : Reordered policy (collect root) (collect root')) :
    plan m bundle root' policy = plan m bundle root policy := by
  have hsame : ∀ (enumerated : List HostPath) (g : Gathering),
      gatherAll m bundle policy enumerated g (outside policy (collect root')) =
        gatherAll m bundle policy enumerated g (outside policy (collect root)) := by
    intro enumerated g
    rw [← gatherAll_place, ← h.outside_place, gatherAll_place]
  simp only [plan, hsame]

/-- A file of the folder is planned at its own path, and comes from nowhere else. -/
theorem fromFolder_placed {files : List BundleFile} {g : Gathering}
    (h : fromFolder m bundle policy = (files, g)) {inside : BundleFile} (hinside : inside ∈ files) :
    ∃ e ∈ g.assets, e.2.bundlePath = inside.relative ∧ e.2.origin = none := by
  obtain ⟨-, -, hassets, hfiles⟩ := fromFolder_files h
  obtain ⟨e, he, hkey⟩ := hfiles inside hinside
  obtain ⟨other, -, rfl⟩ := hassets e he
  exact ⟨_, he, hkey, rfl⟩

theorem gathered_apart {root : XmlElement} {planned : AssetPlan}
    (h : plan m bundle root policy = .ok planned) {file : PlannedFile}
    (hfile : file ∈ planned.assets) (hgathered : file.origin.isSome) :
    file.bundlePath ∉ (fromFolder m bundle policy).1.map BundleFile.relative := by
  have hnodup := (plan_spec h).1
  intro hmem
  obtain ⟨inside, hinside, hpath⟩ := List.mem_map.mp hmem
  obtain ⟨files, g, hfolder⟩ : ∃ files g, fromFolder m bundle policy = (files, g) := ⟨_, _, rfl⟩
  rw [hfolder] at hinside
  obtain ⟨e, he, hplaced, hnone⟩ := fromFolder_placed hfolder hinside
  simp only [plan, hfolder, bind_ok_iff] at h
  obtain ⟨g', hgather, h⟩ := h
  cases h
  have hwithin := (gatherAll_spec hgather (fromFolder_sound hfolder)).2.1
  have hkept : e.2 ∈ g'.assets.map Prod.snd := List.mem_map_of_mem (hwithin.assets e he)
  have hsame : file = e.2 :=
    List.inj_on_of_nodup_map hnodup hfile hkept (hpath.symm.trans hplaced.symm)
  rw [hsame, hnone] at hgathered
  cases hgathered

end Plan

end Ableton

/-! Projects of FL Studio. -/

namespace FlStudio

/-- A reference wherever it stands in the project. -/
def AssetRef.anywhere (r : AssetRef) : AssetRef := { r with eventIndex := 0 }

/-- The references of one project in another order, where one file is written in one way. -/
structure Reordered (refs refs' : List AssetRef) : Prop where
  perm : (refs.map AssetRef.anywhere).Perm (refs'.map AssetRef.anywhere)
  alike : Alike AssetRef.anywhere AssetRef.dedupKey refs

theorem distinct_eq_firsts (seen : List String) (refs : List AssetRef) :
    distinct seen refs = firsts AssetRef.dedupKey seen refs := by
  induction refs generalizing seen with
  | nil => rfl
  | cons r refs ih => rw [distinct, firsts, ih, ih]

theorem Reordered.distinct_perm {refs refs' : List AssetRef} (h : Reordered refs refs') :
    ((distinct [] refs).map AssetRef.anywhere).Perm
      ((distinct [] refs').map AssetRef.anywhere) := by
  rw [distinct_eq_firsts, distinct_eq_firsts]
  exact firsts_perm h.alike h.perm

section Plan
variable {Bytes : Type} (m : Machine Bytes)

/-- The file that a reference is captured from. -/
def captured (references : List AssetRef) (projectDirectory : Option HostPath)
    (aliases : List Ableton.PathAlias) (r : AssetRef) : Option (HostPath × AssetRef) :=
  if r.refClass.shouldVendor then
    (findSource m references projectDirectory aliases r).toOption.map fun source =>
      (source, r.anywhere)
  else none

/-- The files that a plan captures, each with the reference that leads to it. -/
def capturedFiles (refs : List AssetRef) (projectDirectory : Option HostPath)
    (aliases : List Ableton.PathAlias) : List (HostPath × AssetRef) :=
  (distinct [] refs).filterMap (captured m (distinct [] refs) projectDirectory aliases)

/-- A captured file under a name. -/
def planned (bundlePath : String) (file : HostPath × AssetRef) : PlannedFile :=
  ⟨file.1, bundlePath, .sample, some file.2.recordedPath⟩

def plainPath (r : AssetRef) : String := samplesDir ++ "/" ++ sanitize r.fileName

variable {m}

theorem captured_perm {references references' : List AssetRef}
    {projectDirectory : Option HostPath} {aliases : List Ableton.PathAlias}
    (h : (references.map AssetRef.anywhere).Perm (references'.map AssetRef.anywhere))
    (r : AssetRef) :
    captured m references projectDirectory aliases r =
      captured m references' projectDirectory aliases r := by
  have hcount : ∀ refs : List AssetRef,
      (refs.filter fun other => lowerName other = lowerName r).length =
        ((refs.map AssetRef.anywhere).filter fun other => lowerName other = lowerName r).length := by
    intro refs
    rw [List.filter_map, List.length_map]
    rfl
  have hsame : (references.filter fun other => lowerName other = lowerName r).length =
      (references'.filter fun other => lowerName other = lowerName r).length := by
    rw [hcount references, hcount references']
    exact (h.filter _).length_eq
  simp only [captured, findSource, hsame]

theorem capturedFiles_perm {refs refs' : List AssetRef} (h : Reordered refs refs')
    (projectDirectory : Option HostPath) (aliases : List Ableton.PathAlias) :
    (capturedFiles m refs projectDirectory aliases).Perm
      (capturedFiles m refs' projectDirectory aliases) := by
  have hanywhere : ∀ references refs : List AssetRef,
      refs.filterMap (captured m references projectDirectory aliases) =
        (refs.map AssetRef.anywhere).filterMap
          (captured m references projectDirectory aliases) := by
    intro references refs
    rw [List.filterMap_map]
    rfl
  rw [capturedFiles, capturedFiles, hanywhere _ (distinct [] refs), hanywhere _ (distinct [] refs'),
    funext (captured_perm h.distinct_perm)]
  exact h.distinct_perm.filterMap _

section PlanRefs
variable {references : List AssetRef} {projectDirectory : Option HostPath}
variable {aliases : List Ableton.PathAlias}

/-- One reference is passed over, or captured under the next free name. -/
theorem planRefs_cons (taken : List String) (r : AssetRef) (rest : List AssetRef) :
    (planRefs m references projectDirectory aliases taken (r :: rest)).assets =
      match captured m references projectDirectory aliases r with
      | none => (planRefs m references projectDirectory aliases taken rest).assets
      | some file =>
        planned (uniqueDestination file.2.fileName taken) file ::
          (planRefs m references projectDirectory aliases
            (uniqueDestination file.2.fileName taken :: taken) rest).assets := by
  rw [planRefs, captured]
  cases r.refClass.shouldVendor with
  | false =>
    simp only [if_true, Bool.false_eq_true, if_false]
    split <;> rfl
  | true =>
    simp only [Bool.true_eq_false, if_false, if_true]
    cases findSource m references projectDirectory aliases r <;> rfl

theorem planRefs_sources (taken : List String) (refs : List AssetRef) :
    (planRefs m references projectDirectory aliases taken refs).assets.map
        (fun file => (file.source, file.origin)) =
      (refs.filterMap (captured m references projectDirectory aliases)).map fun file =>
        (file.1, some file.2.recordedPath) := by
  induction refs generalizing taken with
  | nil => rfl
  | cons r refs ih =>
    rw [planRefs_cons, List.filterMap_cons]
    cases captured m references projectDirectory aliases r with
    | none => exact ih taken
    | some file =>
      rw [List.map_cons, List.map_cons, ih]
      rfl

/-- Names that are all different are given as they are. -/
theorem planRefs_plain {taken : List String} {refs : List AssetRef}
    (hnodup : ((refs.filterMap (captured m references projectDirectory aliases)).map
      fun file => plainPath file.2).Nodup)
    (hfree : ∀ file ∈ refs.filterMap (captured m references projectDirectory aliases),
      plainPath file.2 ∉ taken) :
    (planRefs m references projectDirectory aliases taken refs).assets =
      (refs.filterMap (captured m references projectDirectory aliases)).map fun file =>
        planned (plainPath file.2) file := by
  induction refs generalizing taken with
  | nil => rfl
  | cons r refs ih =>
    rw [planRefs_cons]
    rw [List.filterMap_cons] at hnodup hfree ⊢
    cases hfile : captured m references projectDirectory aliases r with
    | none =>
      rw [hfile] at hnodup hfree
      exact ih hnodup hfree
    | some file =>
      rw [hfile] at hnodup hfree
      simp only [List.map_cons, List.nodup_cons, List.forall_mem_cons] at hnodup hfree ⊢
      have hpath : uniqueDestination file.2.fileName taken = plainPath file.2 :=
        if_neg hfree.1
      rw [hpath]
      refine congrArg _ (ih hnodup.2 fun other hother htaken => ?_)
      rcases List.mem_cons.mp htaken with hsame | htaken
      · exact hnodup.1 (hsame ▸ List.mem_map_of_mem hother)
      · exact hfree.2 other hother htaken

end PlanRefs

theorem plan_sources (refs : List AssetRef) (projectDirectory : Option HostPath)
    (aliases : List Ableton.PathAlias) :
    ((planFromDirectory m refs projectDirectory aliases).assets.map
      fun file => (file.source, file.origin)).Perm
        ((capturedFiles m refs projectDirectory aliases).map fun file =>
          (file.1, some file.2.recordedPath)) := by
  rw [capturedFiles, ← planRefs_sources []]
  exact (List.perm_insertionSort _ _).map _

theorem plan_plain {refs : List AssetRef} {projectDirectory : Option HostPath}
    {aliases : List Ableton.PathAlias}
    (h : ((capturedFiles m refs projectDirectory aliases).map fun file =>
      plainPath file.2).Nodup) :
    (planFromDirectory m refs projectDirectory aliases).assets =
      ((capturedFiles m refs projectDirectory aliases).map fun file =>
        planned (plainPath file.2) file).insertionSort fun a b => a.bundlePath ≤ b.bundlePath := by
  rw [planFromDirectory, planRefs_plain h fun _ _ => List.not_mem_nil]
  rfl

/-- The same files are captured, and under the same names where all of these differ. -/
theorem plan_reordered {refs refs' : List AssetRef} (h : Reordered refs refs')
    (projectDirectory : Option HostPath) (aliases : List Ableton.PathAlias) :
    ((planFromDirectory m refs projectDirectory aliases).assets.map
      fun file => (file.source, file.origin)).Perm
        ((planFromDirectory m refs' projectDirectory aliases).assets.map
          fun file => (file.source, file.origin)) ∧
      (((capturedFiles m refs projectDirectory aliases).map fun file =>
        plainPath file.2).Nodup →
        (planFromDirectory m refs' projectDirectory aliases).assets =
          (planFromDirectory m refs projectDirectory aliases).assets) := by
  have hfiles := capturedFiles_perm (m := m) h projectDirectory aliases
  constructor
  · have hsources := hfiles.map fun file => (file.1, some file.2.recordedPath)
    exact ((plan_sources refs projectDirectory aliases).trans hsources).trans
      (plan_sources refs' projectDirectory aliases).symm
  · intro hnodup
    have hpaths := hfiles.map fun file => plainPath file.2
    have hnodup' := hpaths.nodup_iff.mp hnodup
    rw [plan_plain hnodup', plan_plain hnodup]
    apply insertionSort_perm
    · rw [List.map_map]
      exact hnodup'
    · exact (hfiles.map _).symm

end Plan

end FlStudio

/-- A machine with these files, where the song's folder lists its own. -/
def drumMachine (listing : Listing) (hproper : listing.Proper) (files : List String) :
    Machine Term where
  isFile path := decide (path ∈ files.map HostPath.ofText)
  isDir path := decide (path = songFolder)
  read path := some (.text path.display)
  readDir path := if path = songFolder then .ok listing else .error "not found"
  proper path listing h := by
    split at h
    · cases h
      exact hproper
    · cases h
  home := none

/-- References from a set to files outside its folder. -/
def drumSet (paths : List String) : XmlElement :=
  .mk "Ableton" none [] (paths.map fun path => .element (.mk "FileRef" none []
    [Ableton.valueNode "RelativePathType" "1", Ableton.valueNode "RelativePath" ("../.." ++ path),
      Ableton.valueNode "Path" path]))

/-- The same references of an FL Studio project. -/
def drumRefs (paths : List String) : List FlStudio.AssetRef :=
  paths.mapIdx fun i path => ⟨path, path, FlStudio.classify path path, i⟩

def kicks : Machine Term :=
  drumMachine (filesNamed ["Song.als"]) (filesNamed_proper (by decide) (by decide))
    ["/a/Kick.wav", "/b/Kick.wav", "/b/kick.wav"]

/-- A song with a recording that is too long to capture. -/
def heldBack : Machine Term :=
  drumMachine
    (.entry (.text "Song.als") (.file 0) (.entry (.text "Samples") (.folder
      (.entry (.text "Imported") (.folder
        (.entry (.text "Kick.wav") (.file (3 * 1024 ^ 3)) .done)) .done)) .done))
    (by simp [Listing.Proper, Item.Proper, OsName.Plain, Listing.names])
    ["/work/Song/Song.als", "/work/Song/Samples/Imported/Kick.wav",
      "/work/Song/Samples/Kick.wav", "/a/Kick.wav"]

def lowerPath (file : PlannedFile) : List Char := file.bundlePath.toList.map Char.toLower

end AuruPm
