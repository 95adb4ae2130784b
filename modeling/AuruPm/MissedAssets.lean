import AuruPm.MirrorService
import AuruPm.PlannedFiles
import AuruPm.SymbolicProjects

/-!
# Files that a push misses

A push takes up a reference when its planner looks for the reference's file. Whatever is taken
up is in the manifest with the bytes of its file, or is reported. A loose Live Set takes up
nothing.
-/

namespace AuruPm

set_option autoImplicit false

open SortedAssoc Threads

variable {Client Bytes Hash : Type}

/-! What is taken up. -/

/-- The files of native clips. -/
def nativeTaken (snapshot : Value) (projectDirectory : Option HostPath) : List TakenFile :=
  (samplePathsInSnapshot snapshot).map fun path =>
    ⟨path, some (nativeFile projectDirectory path).source⟩

section Taken
variable (F : Formats Bytes Hash) (C : Codecs Bytes Hash) (bytesOf : ByteView Bytes)
variable (m : Machine Bytes)

def liveSetTaken (snapshot : Value) (policy : Ableton.BundlePolicy) :
    Option HostPath → List TakenFile
  | none => []
  | some path =>
    match Ableton.AbletonBundle.detect m path, Ableton.rootFromValue C snapshot with
    | .ok (some bundle), some root => Ableton.taken m bundle policy root
    | _, _ => []

variable {C m} in
theorem liveSet_spec {snapshot : Value} {policy : Ableton.BundlePolicy} {path : HostPath}
    {plan : Ableton.AssetPlan}
    (h : Ableton.planAssetsFromValue C m snapshot path policy = .ok plan)
    (hableton : Ableton.isAbletonSnapshot snapshot = true) :
    (plan.assets.map PlannedFile.bundlePath).Nodup ∧
      ∀ r ∈ liveSetTaken C m snapshot policy (some path),
        r.PlannedIn plan.assets (plan.unresolved.map Ableton.UnresolvedAsset.reference) := by
  simp only [Ableton.planAssetsFromValue, hableton, Bool.not_true, Bool.false_eq_true,
    if_false] at h
  simp only [liveSetTaken]
  split at h
  · rename_i bundle hdetect
    rw [hdetect]
    split at h
    · rename_i root hroot
      rw [hroot]
      exact Ableton.plan_spec h
    · rename_i hroot
      cases h
      rw [hroot]
      exact ⟨List.nodup_nil, fun _ h => nomatch h⟩
  · rename_i hno
    cases h
    refine ⟨List.nodup_nil, fun r hr => ?_⟩
    split at hr
    · rename_i bundle root hdetect hroot
      exact absurd hdetect (hno bundle)
    · cases hr

variable [DecidableEq Hash]

/-- The event stream of an FL Studio snapshot, or how its absence is reported. -/
def flStream (snapshot : Value) : Except String FlStudio.Stream :=
  match flSource F C snapshot with
  | none => .error flReferencesUnreadable
  | some source => (FlStudio.Stream.decode (bytesOf source)).mapError fun e =>
    flReferencesUnreadable ++ ": " ++ e

def flstudioTaken (snapshot : Value) (projectDirectory : Option HostPath)
    (policy : Ableton.BundlePolicy) : List TakenFile :=
  match flStream F C bytesOf snapshot with
  | .error name => [⟨name, none⟩]
  | .ok stream =>
    FlStudio.taken m (FlStudio.collect m.home stream) projectDirectory policy.pathAliases

/-- The files that a commit of a snapshot takes up on a machine. -/
def takenFiles (snapshot : Value) (projectDirectory : Option HostPath)
    (policy : Ableton.BundlePolicy) : List TakenFile :=
  if Ableton.isAbletonSnapshot snapshot then liveSetTaken C m snapshot policy projectDirectory
  else if (snapshot.get "format").bind readFormat = some .flStudio then
    flstudioTaken F C bytesOf m snapshot projectDirectory policy
  else nativeTaken snapshot projectDirectory

variable {F C bytesOf m}

theorem flstudio_spec {snapshot : Value} {projectDirectory : Option HostPath}
    {policy : Ableton.BundlePolicy} {planned : PlannedAssets Bytes}
    (h : flstudioAssetsFromValue F C bytesOf m snapshot projectDirectory policy = planned) :
    ∃ files : List PlannedFile, planned.assets = files.map (PlannedFile.read m) ∧
      (files.map PlannedFile.bundlePath).Nodup ∧
      ∀ r ∈ flstudioTaken F C bytesOf m snapshot projectDirectory policy,
        r.PlannedIn files planned.unavailable := by
  unfold flstudioAssetsFromValue at h
  unfold flstudioTaken flStream
  cases hsource : flSource F C snapshot with
  | none =>
    rw [hsource] at h
    subst h
    exact ⟨[], rfl, List.nodup_nil, fun r hr => Or.inl (List.mem_map_of_mem hr)⟩
  | some source =>
    rw [hsource] at h
    simp only at h
    cases hdecode : FlStudio.Stream.decode (bytesOf source) with
    | error e =>
      rw [hdecode] at h
      subst h
      simp only [hdecode, Except.mapError]
      exact ⟨[], rfl, List.nodup_nil, fun r hr => Or.inl (List.mem_map_of_mem hr)⟩
    | ok stream =>
      rw [hdecode] at h
      subst h
      simp only [hdecode, Except.mapError]
      exact ⟨_, rfl, FlStudio.planFromDirectory_spec rfl⟩

/-- A plan reads files at bundle paths of their own, and accounts for what is taken up. -/
theorem planned_spec {snapshot : Value} {projectDirectory : Option HostPath}
    {policy : Ableton.BundlePolicy} {planned : PlannedAssets Bytes}
    (h : planAssetsWithReport F C bytesOf m snapshot projectDirectory policy = .ok planned) :
    ∃ files : List PlannedFile, planned.assets = files.map (PlannedFile.read m) ∧
      (files.map PlannedFile.bundlePath).Nodup ∧
      ∀ r ∈ takenFiles F C bytesOf m snapshot projectDirectory policy,
        r.PlannedIn files planned.unavailable := by
  unfold planAssetsWithReport at h
  unfold takenFiles
  split at h
  · rename_i hableton
    rw [if_pos hableton]
    cases projectDirectory with
    | none =>
      cases h
      exact ⟨[], rfl, List.nodup_nil, fun _ h => nomatch h⟩
    | some path =>
      simp only [bind_ok_iff] at h
      obtain ⟨plan, hplan, h⟩ := h
      cases h
      exact ⟨plan.assets, rfl, liveSet_spec hplan hableton⟩
  · rename_i hableton
    rw [if_neg hableton]
    split at h
    · rename_i hfl
      rw [if_pos hfl]
      exact flstudio_spec (Except.ok.inj h)
    · rename_i hfl
      rw [if_neg hfl]
      cases h
      refine ⟨(samplePathsInSnapshot snapshot).map (nativeFile projectDirectory), ?_, ?_, ?_⟩
      · rw [List.map_map]
        rfl
      · rw [List.map_map]
        have hpaths : PlannedFile.bundlePath ∘ nativeFile projectDirectory = id := rfl
        rw [hpaths, List.map_id]
        exact (pairwise_keySet _).imp fun hlt => ne_of_lt hlt
      · intro r hr
        obtain ⟨path, hpath, rfl⟩ := List.mem_map.mp hr
        exact Or.inr ⟨_, List.mem_map_of_mem hpath, rfl⟩

end Taken

/-! What is held. -/

/-- What becomes of a file that a commit takes up. -/
inductive Delivery.AccountsFor (F : Formats Bytes Hash) (m : Machine Bytes)
    (d : Delivery Bytes Hash) (r : TakenFile) : Prop
  | reported (h : r.name ∈ d.unavailable)
  | unread {path : HostPath} {bundlePath : String} (hsource : r.source = some path)
    (hread : m.read path = none) (h : bundlePath ∈ d.unavailable)
  | held {path : HostPath} {bytes : Bytes} {entry : SampleEntry Hash}
    (hsource : r.source = some path) (hread : m.read path = some bytes)
    (h : entry ∈ d.manifest.entries) (hhash : entry.hash = F.contentHash bytes)

theorem nodup_entries {F : Formats Bytes Hash} {m : Machine Bytes} {files : List PlannedFile}
    (h : (files.map PlannedFile.bundlePath).Nodup) :
    (((files.map (PlannedFile.read m)).filterMap (PlannedAsset.entry F)).map
      SampleEntry.path).Nodup := by
  induction files with
  | nil => exact List.nodup_nil
  | cons file files ih =>
    rw [List.map_cons, List.nodup_cons] at h
    rw [List.map_cons]
    cases hread : m.read file.source with
    | none =>
      rw [List.filterMap_cons_none (by rw [PlannedAsset.entry, PlannedFile.read, hread]; rfl)]
      exact ih h.2
    | some bytes =>
      rw [List.filterMap_cons_some (by rw [PlannedAsset.entry, PlannedFile.read, hread]; rfl),
        List.map_cons, List.nodup_cons]
      refine ⟨fun hmem => h.1 ?_, ih h.2⟩
      obtain ⟨entry, hentry, hpath⟩ := List.mem_map.mp hmem
      obtain ⟨asset, hasset, hmade⟩ := List.mem_filterMap.mp hentry
      obtain ⟨other, hother, rfl⟩ := List.mem_map.mp hasset
      obtain ⟨contents, -, rfl⟩ := Option.map_eq_some_iff.mp hmade
      have hpath : other.bundlePath = file.bundlePath := hpath
      exact hpath ▸ List.mem_map_of_mem hother

section Held
variable {F : Formats Bytes Hash} {C : Codecs Bytes Hash}
variable {problems : Value → List IntegrityProblem} {info : Value → Option Bytes}

theorem snapshotResources_nil {snapshot : Value}
    (hformat : (snapshot.get "format").bind readFormat ≠ some .dawproject) :
    snapshotResources F C snapshot = .ok [] := by
  have hparts : snapshotParts snapshot = none := by
    cases hread : (snapshot.get "format").bind readFormat with
    | none => simp [snapshotParts, hread]
    | some format =>
      have hne : format ≠ .dawproject := fun heq => hformat (hread.trans (congrArg some heq))
      simp [snapshotParts, hread, hne]
  rw [snapshotResources, hparts]
  rfl

variable [DecidableEq Hash]

/-- Whatever a commit takes up is held with the bytes of its file, or reported. -/
theorem produces_accounts {request : PushRequest Client Bytes Hash} {d : Delivery Bytes Hash}
    (hd : Push.Produces F (kernelReaders F C problems info) request d) {snapshot : Value}
    (hsnapshot : F.decodeValue d.snapshotBytes = .ok snapshot)
    (hformat : (snapshot.get "format").bind readFormat ≠ some .dawproject)
    {bytesOf : ByteView Bytes} {m : Machine Bytes} {projectDirectory : Option HostPath}
    {policy : Ableton.BundlePolicy}
    (hplan : planAssetsWithReport F C bytesOf m snapshot projectDirectory policy =
      .ok (request.planAssets snapshot)) :
    ∀ r ∈ takenFiles F C bytesOf m snapshot projectDirectory policy, d.AccountsFor F m r := by
  obtain ⟨decoded, resources, hdecoded, hresources, hentries, hunavailable⟩ :=
    produces_manifest hd
  obtain rfl : snapshot = decoded := Except.ok.inj (hsnapshot.symm.trans hdecoded)
  obtain rfl : [] = resources :=
    Except.ok.inj ((snapshotResources_nil hformat).symm.trans hresources)
  obtain ⟨files, hassets, hnodup, hplanned⟩ := planned_spec hplan
  have hentries : d.manifest.entries =
      insertAll [] ((files.map (PlannedFile.read m)).filterMap (PlannedAsset.entry F)) := by
    rw [hentries, hassets]
    rfl
  intro r hr
  rcases hplanned r hr with hmissing | ⟨file, hfile, hsource⟩
  · exact .reported ((hunavailable r.name).mpr (Or.inl hmissing))
  · cases hread : m.read file.source with
    | none =>
      refine .unread hsource hread ((hunavailable file.bundlePath).mpr (Or.inr ?_))
      rw [unreadable, hassets]
      refine List.mem_map.mpr ⟨file.read m, List.mem_filter.mpr ⟨List.mem_map_of_mem hfile, ?_⟩, rfl⟩
      rw [PlannedFile.read, hread]
      rfl
    | some bytes =>
      let entry : SampleEntry Hash :=
        ⟨file.bundlePath, F.contentHash bytes, F.byteLength bytes, file.kind, file.origin⟩
      have hentry : (file.read m).entry F = some entry := by
        rw [PlannedAsset.entry, PlannedFile.read, hread]
        rfl
      have hheld : entry ∈ d.manifest.entries := by
        rw [hentries]
        exact mem_insertAll_of_nodup
          (List.mem_filterMap.mpr ⟨_, List.mem_map_of_mem hfile, hentry⟩) (nodup_entries hnodup)
      exact .held hsource hread hheld rfl

/-- A push that reports nothing missing has every file that it took up in its manifest. -/
theorem complete_push_has_taken {request : PushRequest Client Bytes Hash} {d : Delivery Bytes Hash}
    (hd : Push.Produces F (kernelReaders F C problems info) request d)
    (hnone : d.unavailable = []) {snapshot : Value}
    (hsnapshot : F.decodeValue d.snapshotBytes = .ok snapshot)
    (hformat : (snapshot.get "format").bind readFormat ≠ some .dawproject)
    {bytesOf : ByteView Bytes} {m : Machine Bytes} {projectDirectory : Option HostPath}
    {policy : Ableton.BundlePolicy}
    (hplan : planAssetsWithReport F C bytesOf m snapshot projectDirectory policy =
      .ok (request.planAssets snapshot)) :
    ∀ r ∈ takenFiles F C bytesOf m snapshot projectDirectory policy,
      ∃ path bytes, ∃ entry ∈ d.manifest.entries, r.source = some path ∧
        m.read path = some bytes ∧ entry.hash = F.contentHash bytes := by
  intro r hr
  cases produces_accounts hd hsnapshot hformat hplan r hr with
  | reported h =>
    rw [hnone] at h
    cases h
  | unread hsource hread h =>
    rw [hnone] at h
    cases h
  | @held path bytes entry hsource hread h hhash =>
    exact ⟨path, bytes, entry, h, hsource, hread, hhash⟩

end Held

/-! A project folder and a loose set. -/

/-- A Live Set with one reference to a file, relative to the set and absolute. -/
def liveSet (relative absolute : String) : Value :=
  let node (tag : String) (attributes : List (String × Value)) (children : List Value) : Value :=
    .object [("attributes", .object attributes), ("children", .array children),
      ("tag", .string tag)]
  let value (tag text : String) : Value := node tag [("Value", .string text)] []
  .object [("auru_pm_snapshot", .number (.posInt 2)), ("format", .string "ableton-live-set"),
    ("project", .object [("root", node "Ableton" [] [node "FileRef" [] [value "RelativePathType" "1",
      value "RelativePath" relative, value "Path" absolute]])])]

/-- Files of these names. -/
def filesNamed : List String → Listing
  | [] => .done
  | name :: rest => .entry (.text name) (.file 0) (filesNamed rest)

theorem names_filesNamed (names : List String) :
    (filesNamed names).names = names.map .text := by
  induction names with
  | nil => rfl
  | cons name names ih => rw [filesNamed, Listing.names, ih, List.map_cons]

theorem filesNamed_proper {names : List String} (hnodup : names.Nodup)
    (hplain : ∀ name ∈ names, OsName.Plain (.text name)) : (filesNamed names).Proper := by
  induction names with
  | nil => trivial
  | cons name names ih =>
    rw [List.nodup_cons] at hnodup
    rw [List.forall_mem_cons] at hplain
    refine ⟨hplain.1, ?_, trivial, ih hnodup.2 hplain.2⟩
    rw [names_filesNamed]
    intro hmem
    obtain ⟨other, hother, heq⟩ := List.mem_map.mp hmem
    cases heq
    exact hnodup.1 hother

/-- A folder of files, and one file elsewhere. Each file reads as its own path. -/
def desk (folder : HostPath) (names : List String) (other : HostPath) (hnodup : names.Nodup)
    (hplain : ∀ name ∈ names, OsName.Plain (.text name)) : Machine Term where
  isFile path := decide (path = other ∨ path ∈ names.map fun name => folder.child (.text name))
  isDir path := decide (path = folder)
  read path :=
    if path = other ∨ path ∈ names.map fun name => folder.child (.text name) then
      some (.text path.display)
    else none
  readDir path := if path = folder then .ok (filesNamed names) else .error "not found"
  proper path listing h := by
    split at h
    · cases h
      exact filesNamed_proper hnodup hplain
    · cases h
  home := none

/-- A push of a document from a folder of a machine. -/
def pushFrom (m : Machine Term) (folder : HostPath) (document : Value) :
    PushRequest Nat Term Term :=
  { pushOf 0 document with
    planAssets := fun snapshot =>
      (planAssetsWithReport symbolicJson symbolicCodecs (fun _ => []) m snapshot (some folder)
        {}).toOption.getD ⟨[], []⟩ }

/-- What a push that runs alone hands to its mirrors. -/
def deliveryAt (s : Shared Nat Term Term) (clock : Clock) (push : Nat)
    (request : PushRequest Nat Term Term) : Option (Delivery Term Term) :=
  match (s.alone symbolicJson clock push request
      (Push.upToMirrors symbolicJson dawReaders request)).2 with
  | .ok (.inr d) => some d
  | _ => none

theorem deliveryAt_such {s : Shared Nat Term Term} {clock : Clock} {push : Nat}
    {request : PushRequest Nat Term Term} {test : Delivery Term Term → Bool}
    (h : (deliveryAt s clock push request).any test = true) :
    ∃ d, Push.Produces symbolicJson dawReaders request d ∧ test d = true := by
  obtain ⟨d, hd, ht⟩ := (Option.any_eq_true test _).mp h
  refine ⟨d, ?_, ht⟩
  unfold deliveryAt at hd
  split at hd
  · rename_i hr
    cases hd
    exact returns_alone hr
  · cases hd

/-- Where the set of a push lies. -/
def songFolder : HostPath := .ofText "/work/Song"

def breakFile : HostPath := .ofText "/loops/break.wav"

theorem nodup_songNames : ["Song.als", "kick.wav"].Nodup := by decide

theorem plain_songNames : ∀ name ∈ ["Song.als", "kick.wav"], OsName.Plain (.text name) := by decide

/-- A folder with one set, which makes it a project, and a sample. -/
def projectDesk : Machine Term :=
  desk songFolder ["Song.als", "kick.wav"] breakFile nodup_songNames plain_songNames

/-- A folder with two sets. -/
def looseDesk : Machine Term :=
  desk songFolder ["Song.als", "Other.als"] breakFile (by decide) (by decide)

def breakSet : Value := liveSet "../../loops/break.wav" "/loops/break.wav"

theorem pushFrom_plans {m : Machine Term} {folder : HostPath} {snapshot : Value} (document : Value)
    (h : (planAssetsWithReport symbolicJson symbolicCodecs (fun _ => []) m snapshot (some folder)
      {}).toOption.isSome = true) :
    planAssetsWithReport symbolicJson symbolicCodecs (fun _ => []) m snapshot (some folder) {} =
      .ok ((pushFrom m folder document).planAssets snapshot) := by
  obtain ⟨planned, hplanned⟩ := Option.isSome_iff_exists.mp h
  simp only [pushFrom, hplanned, Option.getD_some]
  cases hplan : planAssetsWithReport symbolicJson symbolicCodecs (fun _ => []) m snapshot
      (some folder) {} with
  | error e =>
    rw [hplan] at hplanned
    cases hplanned
  | ok _ =>
    rw [hplan] at hplanned
    exact congrArg _ (Option.some.inj hplanned)

/-- From the project folder, the loop that the set refers to is committed. -/
theorem complete_push_has_break : ∃ d, Push.Produces symbolicJson dawReaders
    (pushFrom projectDesk songFolder breakSet) d ∧ d.unavailable = [] ∧
      ∃ entry ∈ d.manifest.entries, projectDesk.read breakFile = some entry.hash := by
  obtain ⟨d, hd, ht⟩ := deliveryAt_such
    (show (deliveryAt .start 1 0 (pushFrom projectDesk songFolder breakSet)).any (fun d =>
      decide (d.unavailable = [] ∧ d.snapshotBytes = .value breakSet)) = true by decide +kernel)
  obtain ⟨hnone, hbytes⟩ := of_decide_eq_true ht
  have hsnapshot : symbolicJson.decodeValue d.snapshotBytes = .ok breakSet := by
    rw [hbytes]
    rfl
  have htaken : (⟨"../../loops/break.wav", some breakFile⟩ : TakenFile) ∈
      takenFiles symbolicJson symbolicCodecs (fun _ => []) projectDesk breakSet (some songFolder)
        {} := by
    decide +kernel
  obtain ⟨path, bytes, entry, hentry, hsource, hread, hhash⟩ := complete_push_has_taken hd hnone
    hsnapshot (by decide) (pushFrom_plans breakSet (by decide +kernel)) _ htaken
  cases hsource
  exact ⟨d, hd, hnone, entry, hentry, hread.trans (congrArg some hhash.symm)⟩

/-- A loose set: nothing is missing, and the loop that it refers to is not committed. -/
theorem loose_set_misses_break : ∃ d, Push.Produces symbolicJson dawReaders
    (pushFrom looseDesk songFolder breakSet) d ∧
    (Push.pushWithOptions symbolicJson dawReaders (pushFrom looseDesk songFolder breakSet)).Returns
      (.committed d.commit.id false [] []) ∧
    d.snapshotBytes = .value breakSet ∧
    ∃ root r, Ableton.rootFromValue symbolicCodecs breakSet = some root ∧
      r ∈ Ableton.collect root ∧ r.refClass = .external ∧
      looseDesk.isFile (.ofText r.absolutePath) = true ∧
      ∃ bytes, looseDesk.read (.ofText r.absolutePath) = some bytes ∧
        ∀ entry ∈ d.manifest.entries, entry.hash ≠ symbolicJson.contentHash bytes := by
  obtain ⟨d, hd, ht⟩ := deliveryAt_such
    (show (deliveryAt .start 1 0 (pushFrom looseDesk songFolder breakSet)).any (fun d =>
      decide (d.unavailable = [] ∧ d.snapshotBytes = .value breakSet ∧ d.wasMerge = false ∧
        d.manifest.entries = [])) = true by decide +kernel)
  obtain ⟨hnone, hbytes, hmerge, hentries⟩ := of_decide_eq_true ht
  have hcommitted := produces_committed hd
  rw [hnone, hmerge] at hcommitted
  refine ⟨d, hd, hcommitted, hbytes, _, _, rfl, List.mem_singleton.mpr rfl, by decide +kernel,
    by decide +kernel, _, rfl, fun entry hentry => ?_⟩
  rw [hentries] at hentry
  cases hentry

end AuruPm
