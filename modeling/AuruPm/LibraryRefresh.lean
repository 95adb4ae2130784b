import AuruPm.BackupStatus
import AuruPm.PortableSnapshot
import AuruPm.Lib.Upsert

/-!
# Refreshing one provider's rows in the library

The rows of the library, from files on this computer and from the catalogues of providers, and
what a refresh of one catalogue makes of them. A seed reaches the first row with its handle only.
-/

namespace AuruPm.Library

set_option autoImplicit false

open SortedAssoc Server BackupStatus Upsert

/-- Nanoseconds since the epoch. -/
abbrev SystemTime := Int

structure RemoteProjectRef (Hash : Type) where
  providerId : String
  handle : String
  head : Hash
  deriving DecidableEq

structure RemoteProjectSeed (Hash Info : Type) where
  providerId : String
  providerName : String
  handle : String
  head : Hash
  name : String
  fileName : String
  format : ProjectFormat
  metadata : ProjectMetadata
  location : Option ProjectLocation
  updatedAt : Int
  info : Option Info

/-- A map from providers to handles. -/
abbrev ProviderHandles := { handles : List (String × String) // Sorted handles }

/-- A row. The texts and figures that rows only show are one field. -/
structure Project (Hash Shown : Type) where
  id : String
  name : String
  fileName : String
  localPath : String
  format : ProjectFormat
  status : ProjectStatus
  modifiedAt : Option SystemTime
  backedUpAt : Option SystemTime
  addedAt : Option Int
  liveSet : Option (List String)
  remote : Option (RemoteProjectRef Hash)
  providerHandles : ProviderHandles
  metadata : ProjectMetadata
  location : Option ProjectLocation
  shown : Shown

variable {Hash Info Shown : Type} (describe : RemoteProjectSeed Hash Info → Shown)

def Project.fromRemote (seed : RemoteProjectSeed Hash Info) : Project Hash Shown where
  id := "remote:" ++ seed.providerId ++ ":" ++ seed.handle
  name := seed.name
  fileName := seed.fileName
  localPath := "Stored on " ++ seed.providerName
  format := seed.format
  status := .notDownloaded
  modifiedAt := none
  backedUpAt := if 0 ≤ seed.updatedAt then some (seed.updatedAt * 1000000000) else none
  addedAt := some seed.updatedAt
  liveSet := none
  remote := some ⟨seed.providerId, seed.handle, seed.head⟩
  providerHandles := ⟨[(seed.providerId, seed.handle)], List.pairwise_singleton _ _⟩
  metadata := seed.metadata
  location := seed.location
  shown := describe seed

/-! The refresh. -/

def isRetained (providerId : String) (project : Project Hash Shown) : Bool :=
  project.liveSet.isSome || project.remote.all fun remote => remote.providerId ≠ providerId

def knownHandles (projects : List (Project Hash Shown)) : List (String × String) :=
  projects.flatMap fun project => project.providerHandles.val

def isLinked (seed : RemoteProjectSeed Hash Info) (project : Project Hash Shown) : Bool :=
  get? project.providerHandles.val seed.providerId = some seed.handle

def applySeed (project : Project Hash Shown) (seed : RemoteProjectSeed Hash Info) :
    Project Hash Shown :=
  { project with metadata := seed.metadata, location := project.location.or seed.location }

/-- One turn of the loop, on the rows and the known handles. -/
def takeSeed (state : List (Project Hash Shown) × List (String × String))
    (seed : RemoteProjectSeed Hash Info) : List (Project Hash Shown) × List (String × String) :=
  match updateFirst (isLinked seed) (applySeed · seed) state.1 with
  | some projects => (projects, state.2)
  | none =>
    if (seed.providerId, seed.handle) ∈ state.2 then state
    else (state.1 ++ [.fromRemote describe seed], (seed.providerId, seed.handle) :: state.2)

def replaceProviderProjects (projects : List (Project Hash Shown)) (providerId : String)
    (remote : List (RemoteProjectSeed Hash Info)) : List (Project Hash Shown) :=
  let projects := projects.filter (isRetained providerId)
  (remote.foldl (takeSeed describe) (projects, knownHandles projects)).1

/-! The rows of a library. -/

def Project.isLocal (project : Project Hash Shown) : Bool := project.liveSet.isSome

def Project.handleOn (providerId : String) (project : Project Hash Shown) : Option String :=
  get? project.providerHandles.val providerId

/-- A row that shows only what this provider stores. -/
def Project.onlyOn (providerId : String) (project : Project Hash Shown) : Bool :=
  project.liveSet.isNone && project.remote.any fun remote => remote.providerId = providerId

/-- A row without a file on this computer has the one handle of its provider, as it was made. -/
def Catalogued (projects : List (Project Hash Shown)) : Prop :=
  ∀ project ∈ projects, project.liveSet = none → ∃ remote, project.remote = some remote ∧
    project.providerHandles.val = [(remote.providerId, remote.handle)]

/-- How the rows of a provider take its seeds. -/
def scheme (providerId : String) :
    Scheme (Project Hash Shown) (RemoteProjectSeed Hash Info) String where
  key := Project.handleOn providerId
  seedKey := RemoteProjectSeed.handle
  touch := applySeed
  make seed := .fromRemote describe { seed with providerId := providerId }

theorem foldl_applySeed (seeds : List (RemoteProjectSeed Hash Info)) (project : Project Hash Shown) :
    seeds.foldl applySeed project =
      { project with
        metadata := (seeds.getLast?.map RemoteProjectSeed.metadata).getD project.metadata
        location := project.location.or (seeds.findSome? RemoteProjectSeed.location) } := by
  induction seeds generalizing project with
  | nil => simp
  | cons seed seeds ih =>
    rw [List.foldl_cons, ih]
    simp only [applySeed, Project.mk.injEq, true_and, and_true]
    constructor
    · cases seeds with
      | nil => rfl
      | cons next rest =>
        rw [List.getLast?_cons_cons]
        cases h : (next :: rest).getLast? with
        | none => simp at h
        | some last => rfl
    · rw [List.findSome?_cons, Option.or_assoc]
      cases seed.location <;> rfl

theorem lawful_scheme (providerId : String) :
    (scheme describe providerId).Lawful where
  key_touch _ _ := rfl
  key_make _ := get?_cons_self _ _ _
  touch_make seed := by
    change applySeed (.fromRemote describe { seed with providerId := providerId }) seed =
      .fromRemote describe { seed with providerId := providerId }
    rw [applySeed, Project.fromRemote]
    cases seed.location <;> rfl
  touch_twice seeds project := by
    change seeds.foldl applySeed (seeds.foldl applySeed project) = seeds.foldl applySeed project
    rw [foldl_applySeed, foldl_applySeed]
    simp only [Project.mk.injEq, true_and, and_true]
    constructor
    · cases seeds.getLast? <;> rfl
    · cases project.location <;> cases seeds.findSome? RemoteProjectSeed.location <;> rfl

/-! The loop. -/

section Refresh
variable {describe} {providerId : String} {projects : List (Project Hash Shown)}
  {remote : List (RemoteProjectSeed Hash Info)}

theorem isRetained_cases {project : Project Hash Shown} (hcatalogued : Catalogued projects)
    (hproject : project ∈ projects) (hretained : isRetained providerId project = true) :
    project.isLocal = true ∨ project.isLocal = false ∧ project.onlyOn providerId = false ∧
      project.handleOn providerId = none := by
  cases hfile : project.liveSet with
  | some file => exact Or.inl (congrArg Option.isSome hfile)
  | none =>
    obtain ⟨origin, horigin, hhandles⟩ := hcatalogued project hproject hfile
    rw [isRetained, hfile, horigin] at hretained
    have hother : origin.providerId ≠ providerId := by simpa using hretained
    refine Or.inr ⟨congrArg Option.isSome hfile, ?_, ?_⟩
    · simp [Project.onlyOn, hfile, horigin, hother]
    · rw [Project.handleOn, hhandles, get?_cons_of_ne (Ne.symm hother), get?_nil]

/-- The known handles are those of rows. -/
def Known (state : List (Project Hash Shown) × List (String × String)) : Prop :=
  ∀ entry ∈ state.2, ∃ project ∈ state.1, project.handleOn entry.1 = some entry.2

theorem known_start (projects : List (Project Hash Shown)) :
    Known (projects, knownHandles projects) := by
  intro entry hentry
  obtain ⟨project, hproject, hmem⟩ := List.mem_flatMap.mp hentry
  exact ⟨project, hproject, get?_of_mem project.providerHandles.property hmem⟩

variable (describe) in
/-- A turn of the loop updates the first row with the seed's handle or appends one. -/
theorem takeSeed_spec {state : List (Project Hash Shown) × List (String × String)}
    {seed : RemoteProjectSeed Hash Info} (hknown : Known state) (hseed : seed.providerId = providerId) :
    (takeSeed describe state seed).1 = upsert (scheme describe providerId) state.1 seed ∧
      Known (takeSeed describe state seed) := by
  subst hseed
  have hupsert : upsert (scheme describe seed.providerId) state.1 seed =
      (updateFirst (isLinked seed) (applySeed · seed) state.1).getD
        (state.1 ++ [.fromRemote describe seed]) := rfl
  rw [takeSeed, hupsert]
  cases hfirst : updateFirst (isLinked seed) (applySeed · seed) state.1 with
  | some rows =>
    refine ⟨rfl, ?_⟩
    obtain ⟨before, row, after, hstate, _, rfl⟩ := updateFirst_some hfirst
    intro entry hentry
    obtain ⟨project, hproject, hhandle⟩ := hknown entry hentry
    rw [hstate] at hproject
    rcases List.mem_append.mp hproject with hproject | hproject
    · exact ⟨project, List.mem_append_left _ hproject, hhandle⟩
    rcases List.mem_cons.mp hproject with rfl | hproject
    · exact ⟨applySeed project seed, List.mem_append_right _ List.mem_cons_self, hhandle⟩
    · exact ⟨project, List.mem_append_right _ (List.mem_cons_of_mem _ hproject), hhandle⟩
  | none =>
    have hnew : (seed.providerId, seed.handle) ∉ state.2 := by
      intro hmem
      obtain ⟨project, hproject, hhandle⟩ := hknown _ hmem
      have hlinked : isLinked seed project = true := decide_eq_true hhandle
      obtain ⟨rows, hrows⟩ := updateFirst_of_mem (applySeed · seed) hproject hlinked
      rw [hrows] at hfirst
      cases hfirst
    rw [if_neg hnew]
    refine ⟨rfl, ?_⟩
    intro entry hentry
    rcases List.mem_cons.mp hentry with rfl | hentry
    · exact ⟨_, List.mem_append_right _ (List.mem_singleton_self _), get?_cons_self _ _ _⟩
    · obtain ⟨project, hproject, hhandle⟩ := hknown entry hentry
      exact ⟨project, List.mem_append_left _ hproject, hhandle⟩

variable (describe) in
theorem foldl_takeSeed {state : List (Project Hash Shown) × List (String × String)}
    (hknown : Known state) (hseeds : ∀ seed ∈ remote, seed.providerId = providerId) :
    (remote.foldl (takeSeed describe) state).1 =
      remote.foldl (upsert (scheme describe providerId)) state.1 := by
  induction remote generalizing state with
  | nil => rfl
  | cons seed remote ih =>
    obtain ⟨hseed, hrest⟩ := List.forall_mem_cons.mp hseeds
    obtain ⟨hfirst, hnext⟩ := takeSeed_spec describe hknown hseed
    rw [List.foldl_cons, List.foldl_cons, ih hnext hrest, hfirst]

variable (describe projects) in
/-- The rows after a refresh: the retained ones and the new ones, each first row of a handle with
the seeds of that handle applied. -/
theorem replaceProviderProjects_eq (hseeds : ∀ seed ∈ remote, seed.providerId = providerId) :
    replaceProviderProjects describe projects providerId remote =
      settle (scheme describe providerId) remote []
        (projects.filter (isRetained providerId) ++
          newRows (scheme describe providerId) (projects.filter (isRetained providerId)) remote) := by
  have hfold := foldl_takeSeed describe
    (known_start (projects.filter (isRetained providerId))) hseeds
  exact hfold.trans (foldl_upsert (lawful_scheme describe providerId) remote _)

/-- A row is the row it was, apart from its metadata and a location that was absent. -/
structure SameRow (before after : Project Hash Shown) : Prop where
  same : after = { before with metadata := after.metadata, location := after.location }
  located : before.location.isSome → after.location = before.location

theorem sameRow_settle {seen : List String} {rows : List (Project Hash Shown)} :
    List.Forall₂ SameRow rows (settle (scheme describe providerId) remote seen rows) := by
  refine settle_rows.imp ?_
  rintro row row' (rfl | ⟨k, _, rfl⟩)
  · exact ⟨rfl, fun _ => rfl⟩
  · change SameRow row ((group (scheme describe providerId) remote k).foldl applySeed row)
    rw [foldl_applySeed]
    refine ⟨rfl, ?_⟩
    intro hlocated
    obtain ⟨location, hlocation⟩ := Option.isSome_iff_exists.mp hlocated
    simp [hlocation]

theorem SameRow.isLocal {before after : Project Hash Shown} (h : SameRow before after) :
    after.isLocal = before.isLocal := by rw [h.same]; rfl

theorem SameRow.onlyOn {before after : Project Hash Shown} (h : SameRow before after) :
    after.onlyOn providerId = before.onlyOn providerId := by rw [h.same]; rfl

theorem SameRow.handleOn {before after : Project Hash Shown} (h : SameRow before after) :
    after.handleOn providerId = before.handleOn providerId := by rw [h.same]; rfl

/-- A new row stands for a seed whose handle no retained row has. -/
theorem newRow_spec {rows : List (Project Hash Shown)} {row : Project Hash Shown}
    (hrow : row ∈ newRows (scheme describe providerId) rows remote) :
    row.isLocal = false ∧ row.onlyOn providerId = true ∧
      ∃ seed ∈ remote, row.handleOn providerId = some seed.handle ∧
        ∀ other ∈ rows, other.handleOn providerId ≠ some seed.handle := by
  obtain ⟨seed, hseed, rfl⟩ := List.mem_map.mp hrow
  obtain ⟨hmem, hnew⟩ := FirstOf.mem_of_firsts hseed
  refine ⟨rfl, by simp [scheme, Project.onlyOn, Project.fromRemote], seed, hmem,
    get?_cons_self _ _ _, ?_⟩
  intro other hother hkey
  exact hnew (List.mem_filterMap.mpr ⟨other, hother, hkey⟩)

theorem isLinked_iff {seed : RemoteProjectSeed Hash Info} {row : Project Hash Shown}
    (hseed : seed.providerId = providerId) :
    isLinked seed row = true ↔ row.handleOn providerId = some seed.handle := by
  rw [isLinked, decide_eq_true_eq, hseed]
  rfl

variable (describe) in
theorem linked_eq_group {k : String} {row : Project Hash Shown}
    (hseeds : ∀ seed ∈ remote, seed.providerId = providerId)
    (hkey : row.handleOn providerId = some k) :
    (remote.filter fun seed => isLinked seed row) = group (scheme describe providerId) remote k := by
  apply List.filter_congr
  intro seed hseed
  rw [Bool.eq_iff_iff, isLinked_iff (hseeds seed hseed), hkey, decide_eq_true_eq, Option.some.injEq]
  exact eq_comm

theorem linked_eq_nil {row : Project Hash Shown}
    (hseeds : ∀ seed ∈ remote, seed.providerId = providerId)
    (hkey : row.handleOn providerId = none) :
    (remote.filter fun seed => isLinked seed row) = [] := by
  rw [List.filter_eq_nil_iff]
  intro seed hseed hlinked
  rw [isLinked_iff (hseeds seed hseed), hkey] at hlinked
  cases hlinked

/-- The row has the metadata of the last seed with its handle. -/
def Carries (remote : List (RemoteProjectSeed Hash Info)) (row : Project Hash Shown) : Prop :=
  ∀ seed, (remote.filter fun seed => isLinked seed row).getLast? = some seed →
    row.metadata = seed.metadata

theorem carries_of_unlinked {row : Project Hash Shown}
    (hseeds : ∀ seed ∈ remote, seed.providerId = providerId)
    (hkey : row.handleOn providerId = none) : Carries remote row := by
  intro seed hlast
  rw [linked_eq_nil hseeds hkey] at hlast
  cases hlast

variable (describe) in
theorem carries_of_taken {row : Project Hash Shown} {k : String}
    (hseeds : ∀ seed ∈ remote, seed.providerId = providerId)
    (hkey : row.handleOn providerId = some k) :
    Carries remote ((group (scheme describe providerId) remote k).foldl applySeed row) := by
  intro seed hlast
  have hkey' : ((group (scheme describe providerId) remote k).foldl applySeed row).handleOn
      providerId = some k := by
    rw [foldl_applySeed]
    exact hkey
  rw [linked_eq_group describe hseeds hkey'] at hlast
  rw [foldl_applySeed, hlast]
  rfl

section Result
variable (hseeds : ∀ seed ∈ remote, seed.providerId = providerId)

variable (describe projects) in
include hseeds in
/-- The retained rows come first, then the new ones, one for each handle that no retained row has. -/
theorem replace_split : ∃ fresh,
    replaceProviderProjects describe projects providerId remote =
      settle (scheme describe providerId) remote [] (projects.filter (isRetained providerId)) ++
        fresh ∧
      (fresh.map (Project.handleOn providerId)).Nodup ∧
      (∀ row ∈ fresh, row.isLocal = false ∧ row.onlyOn providerId = true) ∧
      ∀ handle, some handle ∈ fresh.map (Project.handleOn providerId) ↔
        (∃ seed ∈ remote, seed.handle = handle) ∧
          ∀ row ∈ projects.filter (isRetained providerId), row.handleOn providerId ≠ some handle := by
  have hlawful := lawful_scheme describe providerId
  have hkeys : ∀ (seen : List String) (rows : List (Project Hash Shown)),
      (settle (scheme describe providerId) remote seen rows).map (Project.handleOn providerId) =
        rows.map (Project.handleOn providerId) := fun _ _ => map_key_settle hlawful
  refine ⟨_, (replaceProviderProjects_eq describe projects hseeds).trans (settle_append _ _),
    ?_, ?_, ?_⟩
  · rw [hkeys]
    exact nodup_newRows_key hlawful
  · intro row hrow
    obtain ⟨new, hnew, hsame⟩ := exists_right_of_forall₂ sameRow_settle.flip hrow
    obtain ⟨hlocal, honly, _⟩ := newRow_spec hnew
    exact ⟨hsame.isLocal.trans hlocal, hsame.onlyOn.trans honly⟩
  · intro handle
    rw [hkeys]
    constructor
    · intro hmem
      obtain ⟨new, hnew, hkey⟩ := List.mem_map.mp hmem
      obtain ⟨_, _, seed, hseed, hhandle, hother⟩ := newRow_spec hnew
      obtain rfl : seed.handle = handle := Option.some.inj (hhandle.symm.trans hkey)
      exact ⟨⟨seed, hseed, rfl⟩, hother⟩
    · rintro ⟨⟨seed, hseed, rfl⟩, hother⟩
      obtain ⟨row, hrow, hkey⟩ := (mem_newRows_key hlawful).mpr (Or.inr (List.mem_map_of_mem hseed))
      rcases List.mem_append.mp hrow with hrow | hrow
      · exact absurd hkey (hother row hrow)
      · exact List.mem_map.mpr ⟨row, hrow, hkey⟩

variable (hcatalogued : Catalogued projects)

include hcatalogued in
/-- A retained row with a handle of the provider has a file on this computer. -/
theorem retained_local {row : Project Hash Shown} (hrow : row ∈ projects.filter (isRetained providerId))
    {k : String} (hkey : row.handleOn providerId = some k) : row.isLocal = true := by
  obtain ⟨hmem, hretained⟩ := List.mem_filter.mp hrow
  rcases isRetained_cases hcatalogued hmem hretained with hlocal | ⟨_, _, hnone⟩
  · exact hlocal
  · rw [hnone] at hkey
    cases hkey

include hcatalogued in
theorem retained_onlyOn {row : Project Hash Shown}
    (hrow : row ∈ projects.filter (isRetained providerId)) : row.onlyOn providerId = false := by
  obtain ⟨hmem, hretained⟩ := List.mem_filter.mp hrow
  rcases isRetained_cases hcatalogued hmem hretained with hlocal | ⟨_, honly, _⟩
  · have hfile : row.liveSet.isNone = false := by
      rw [Option.isNone_eq_false_iff]
      exact hlocal
    rw [Project.onlyOn, hfile, Bool.false_and]
  · exact honly

variable (providerId) in
theorem filter_retained {p : Project Hash Shown → Bool}
    (h : ∀ row, p row = true → row.isLocal = true ∨ row.onlyOn providerId = false) :
    (projects.filter (isRetained providerId)).filter p = projects.filter p := by
  rw [List.filter_filter]
  apply List.filter_congr
  intro row _
  cases hp : p row with
  | false => rfl
  | true =>
    rw [Bool.true_and]
    rcases h row hp with hlocal | hother
    · rw [isRetained, show row.liveSet.isSome = true from hlocal, Bool.true_or]
    · cases hfile : row.liveSet with
      | some file => rw [isRetained, hfile]; rfl
      | none =>
        rw [Project.onlyOn, hfile] at hother
        rw [isRetained, hfile]
        cases hremote : row.remote with
        | none => rfl
        | some remote =>
          rw [hremote] at hother
          simpa using hother

/-! What a refresh promises. -/

variable (describe providerId projects remote) in
/-- The library after the refresh. -/
abbrev refreshed : List (Project Hash Shown) :=
  replaceProviderProjects describe projects providerId remote

/-- A row without a file on this computer that belongs to another provider. -/
def isElsewhere (providerId : String) (row : Project Hash Shown) : Bool :=
  !row.isLocal && !row.onlyOn providerId

include hseeds

theorem refreshed_locals : List.Forall₂ SameRow (projects.filter Project.isLocal)
    ((refreshed describe providerId projects remote).filter Project.isLocal) := by
  obtain ⟨fresh, hsplit, -, hfresh, -⟩ := replace_split describe projects hseeds
  have hnone : fresh.filter Project.isLocal = [] := by
    rw [List.filter_eq_nil_iff]
    intro row hrow
    rw [(hfresh row hrow).1]
    exact Bool.false_ne_true
  rw [refreshed, hsplit, List.filter_append, hnone, List.append_nil,
    ← filter_retained providerId fun _ hlocal => Or.inl hlocal]
  refine List.rel_filter ?_ sameRow_settle
  intro row row' hsame
  change row.isLocal = true ↔ row'.isLocal = true
  rw [hsame.isLocal]

include hcatalogued

theorem refreshed_others : (refreshed describe providerId projects remote).filter
    (isElsewhere providerId) = projects.filter (isElsewhere providerId) := by
  obtain ⟨fresh, hsplit, -, hfresh, -⟩ := replace_split describe projects hseeds
  have hnone : fresh.filter (isElsewhere providerId) = [] := by
    rw [List.filter_eq_nil_iff]
    intro row hrow
    rw [isElsewhere, (hfresh row hrow).2]
    simp
  have hother : ∀ row : Project Hash Shown, isElsewhere providerId row = true →
      row.isLocal = false ∧ row.onlyOn providerId = false := by
    intro row h
    simpa [isElsewhere] using h
  rw [refreshed, hsplit, List.filter_append, hnone, List.append_nil, settle_filter,
    filter_retained providerId fun row h => Or.inr (hother row h).2]
  · intro row hrow helse
    change row.handleOn providerId = none
    cases hkey : row.handleOn providerId with
    | none => rfl
    | some k =>
      have hlocal := retained_local hcatalogued hrow hkey
      rw [(hother row helse).1] at hlocal
      cases hlocal
  · intro row seed
    rfl

/-- Every local row carries its metadata when the rows behind the first of their handle did. -/
theorem refreshed_carried_iff :
    (∀ row ∈ refreshed describe providerId projects remote, row.isLocal = true →
      Carries remote row) ↔
    (projects.filter Project.isLocal).Pairwise fun first row =>
      first.handleOn providerId = row.handleOn providerId → Carries remote row := by
  obtain ⟨fresh, hsplit, -, hfresh, -⟩ := replace_split describe projects hseeds
  have hsettled : (∀ row ∈ refreshed describe providerId projects remote, row.isLocal = true →
      Carries remote row) ↔
      ∀ row ∈ settle (scheme describe providerId) remote []
        (projects.filter (isRetained providerId)), Carries remote row := by
    rw [refreshed, hsplit]
    constructor
    · intro h row hrow
      obtain ⟨before, hbefore, hsame⟩ := exists_right_of_forall₂ sameRow_settle.flip hrow
      cases hkey : before.handleOn providerId with
      | none => exact carries_of_unlinked hseeds (hsame.handleOn.trans hkey)
      | some k =>
        have hlocal := retained_local hcatalogued hbefore hkey
        exact h row (List.mem_append_left _ hrow) (hsame.isLocal.trans hlocal)
    · intro h row hrow hlocal
      rcases List.mem_append.mp hrow with hrow | hrow
      · exact h row hrow
      · rw [(hfresh row hrow).1] at hlocal
        cases hlocal
  rw [hsettled, forall_settle_iff (fun row => carries_of_unlinked hseeds)
    (fun row k => carries_of_taken describe hseeds),
    ← filter_retained providerId fun _ hlocal => Or.inl hlocal]
  constructor
  · rintro ⟨hpairs, -⟩
    exact hpairs.filter _
  · intro h
    refine ⟨?_, fun _ _ _ hk => nomatch hk⟩
    rw [List.pairwise_filter] at h
    refine h.imp_of_mem ?_
    intro first row hfirst hrow hpair hsame
    cases hkey : row.handleOn providerId with
    | none => exact carries_of_unlinked hseeds hkey
    | some k =>
      exact hpair (retained_local hcatalogued hfirst (hsame.trans hkey))
        (retained_local hcatalogued hrow hkey) hsame

/-- A row that is only on the provider is one of the new ones. -/
theorem refreshed_listed {row : Project Hash Shown}
    (hrow : row ∈ refreshed describe providerId projects remote)
    (honly : row.onlyOn providerId = true) : ∃ seed ∈ remote, isLinked seed row = true := by
  rw [refreshed, replaceProviderProjects_eq describe projects hseeds] at hrow
  obtain ⟨before, hbefore, hsame⟩ := exists_right_of_forall₂ sameRow_settle.flip hrow
  rcases List.mem_append.mp hbefore with hbefore | hbefore
  · rw [hsame.onlyOn, retained_onlyOn hcatalogued hbefore] at honly
    cases honly
  · obtain ⟨_, _, seed, hseed, hkey, _⟩ := newRow_spec hbefore
    exact ⟨seed, hseed, (isLinked_iff (hseeds seed hseed)).mpr (hsame.handleOn.trans hkey)⟩

variable (describe) in
/-- A seed is shown by a local row when a retained row has its handle. -/
theorem shownLocally_iff {seed : RemoteProjectSeed Hash Info} (hseed : seed ∈ remote) :
    (refreshed describe providerId projects remote).any
      (fun row => row.isLocal && isLinked seed row) = true ↔
      ∃ row ∈ projects.filter (isRetained providerId),
        row.handleOn providerId = some seed.handle := by
  obtain ⟨fresh, hsplit, -, hfresh, -⟩ := replace_split describe projects hseeds
  have hprovider := hseeds seed hseed
  rw [List.any_eq_true, refreshed, hsplit]
  constructor
  · rintro ⟨row, hrow, hlinked⟩
    obtain ⟨hlocal, hlinked⟩ := Bool.and_eq_true_iff.mp hlinked
    rcases List.mem_append.mp hrow with hrow | hrow
    · obtain ⟨before, hbefore, hsame⟩ := exists_right_of_forall₂ sameRow_settle.flip hrow
      exact ⟨before, hbefore, hsame.handleOn.symm.trans ((isLinked_iff hprovider).mp hlinked)⟩
    · rw [(hfresh row hrow).1] at hlocal
      cases hlocal
  · rintro ⟨before, hbefore, hkey⟩
    obtain ⟨row, hrow, hsame⟩ := exists_right_of_forall₂ sameRow_settle hbefore
    refine ⟨row, List.mem_append_left _ hrow, Bool.and_eq_true_iff.mpr ⟨?_, ?_⟩⟩
    · exact hsame.isLocal.trans (retained_local hcatalogued hbefore hkey)
    · exact (isLinked_iff hprovider).mpr (hsame.handleOn.trans hkey)

/-- A handle is shown by local rows, or else by one row of the provider. -/
theorem refreshed_shown {seed : RemoteProjectSeed Hash Info} (hseed : seed ∈ remote) :
    (refreshed describe providerId projects remote).countP
        (fun row => row.onlyOn providerId && isLinked seed row) =
      if (refreshed describe providerId projects remote).any
        (fun row => row.isLocal && isLinked seed row) then 0 else 1 := by
  obtain ⟨fresh, hsplit, hnodup, hfresh, hkeys⟩ := replace_split describe projects hseeds
  have hprovider := hseeds seed hseed
  have hkept : (settle (scheme describe providerId) remote []
      (projects.filter (isRetained providerId))).countP
        (fun row => row.onlyOn providerId && isLinked seed row) = 0 := by
    rw [List.countP_eq_zero]
    intro row hrow
    obtain ⟨before, hbefore, hsame⟩ := exists_right_of_forall₂ sameRow_settle.flip hrow
    rw [hsame.onlyOn, retained_onlyOn hcatalogued hbefore, Bool.false_and]
    exact Bool.false_ne_true
  have hcount : fresh.countP (fun row => row.onlyOn providerId && isLinked seed row) =
      (fresh.map (Project.handleOn providerId)).count (some seed.handle) := by
    rw [List.count_eq_countP, List.countP_map]
    apply List.countP_congr
    intro row hrow
    rw [(hfresh row hrow).2, Bool.true_and, isLinked_iff hprovider]
    exact beq_iff_eq.symm
  have hleft : (refreshed describe providerId projects remote).countP
      (fun row => row.onlyOn providerId && isLinked seed row) =
        if some seed.handle ∈ fresh.map (Project.handleOn providerId) then 1 else 0 := by
    rw [refreshed, hsplit, List.countP_append, hkept, Nat.zero_add, hcount, hnodup.count]
  have hany := shownLocally_iff describe hseeds hcatalogued hseed
  rw [hleft]
  by_cases hlinked : ∃ row ∈ projects.filter (isRetained providerId),
      row.handleOn providerId = some seed.handle
  · rw [if_pos (hany.mpr hlinked), if_neg]
    intro hmem
    obtain ⟨row, hrow, hkey⟩ := hlinked
    exact ((hkeys _).mp hmem).2 row hrow hkey
  · rw [if_neg fun h => hlinked (hany.mp h), if_pos]
    exact (hkeys _).mpr ⟨⟨seed, hseed, rfl⟩, fun row hrow hkey => hlinked ⟨row, hrow, hkey⟩⟩

omit hcatalogued hseeds in
theorem SameRow.isRetained {before after : Project Hash Shown} (h : SameRow before after) :
    isRetained providerId after = isRetained providerId before := by rw [h.same]; rfl

omit hcatalogued hseeds in
theorem not_retained {row : Project Hash Shown} (h : row.onlyOn providerId = true) :
    isRetained providerId row = false := by
  rw [Project.onlyOn] at h
  rw [Library.isRetained]
  cases hfile : row.liveSet with
  | some file =>
    rw [hfile] at h
    cases h
  | none =>
    cases hremote : row.remote with
    | none =>
      rw [hfile, hremote] at h
      cases h
    | some remote => simpa [hfile, hremote] using h

omit hcatalogued in
/-- The same refresh again changes nothing. -/
theorem refreshed_again :
    refreshed describe providerId (refreshed describe providerId projects remote) remote =
      refreshed describe providerId projects remote := by
  have hlawful := lawful_scheme describe providerId
  obtain ⟨fresh, hsplit, -, hfresh, -⟩ := replace_split describe projects hseeds
  have hretained : (refreshed describe providerId projects remote).filter (isRetained providerId) =
      settle (scheme describe providerId) remote [] (projects.filter (isRetained providerId)) := by
    rw [refreshed, hsplit, List.filter_append]
    have hkept : (settle (scheme describe providerId) remote []
        (projects.filter (isRetained providerId))).filter (isRetained providerId) =
        settle (scheme describe providerId) remote [] (projects.filter (isRetained providerId)) := by
      rw [List.filter_eq_self]
      intro row hrow
      obtain ⟨before, hbefore, hsame⟩ := exists_right_of_forall₂ sameRow_settle.flip hrow
      rw [hsame.isRetained]
      exact (List.mem_filter.mp hbefore).2
    have hnone : fresh.filter (isRetained providerId) = [] := by
      rw [List.filter_eq_nil_iff]
      intro row hrow
      rw [not_retained (hfresh row hrow).2]
      exact Bool.false_ne_true
    rw [hkept, hnone, List.append_nil]
  rw [refreshed, replaceProviderProjects_eq describe _ hseeds, hretained, refreshed,
    replaceProviderProjects_eq describe projects hseeds, settle_append, settle_append,
    settle_settle hlawful, newRows, newRows, filterMap_key_settle hlawful]

include hcatalogued in
omit hseeds in
/-- The rows stay as they are made, so the next refresh finds such a library again. -/
theorem catalogued_refreshed (hseeds : ∀ seed ∈ remote, seed.providerId = providerId) :
    Catalogued (refreshed describe providerId projects remote) := by
  intro row hrow hfile
  rw [refreshed, replaceProviderProjects_eq describe projects hseeds] at hrow
  obtain ⟨before, hbefore, hsame⟩ := exists_right_of_forall₂ sameRow_settle.flip hrow
  rw [hsame.same] at hfile ⊢
  rcases List.mem_append.mp hbefore with hbefore | hbefore
  · exact hcatalogued before (List.mem_filter.mp hbefore).1 hfile
  · obtain ⟨seed, _, rfl⟩ := List.mem_map.mp hbefore
    exact ⟨_, rfl, rfl⟩

end Result

variable (describe projects providerId remote) in
/-- A refresh keeps the local rows and the rows of other providers, every local row carries the
metadata of the last seed with its handle, every handle is shown by local rows or by one row of the
provider, and the same refresh again changes nothing. -/
structure Reconciles : Prop where
  locals : List.Forall₂ SameRow (projects.filter Project.isLocal)
    ((refreshed describe providerId projects remote).filter Project.isLocal)
  others : (refreshed describe providerId projects remote).filter (isElsewhere providerId) =
    projects.filter (isElsewhere providerId)
  carried : ∀ row ∈ refreshed describe providerId projects remote, row.isLocal = true →
    Carries remote row
  shown : ∀ seed ∈ remote,
    (refreshed describe providerId projects remote).countP
        (fun row => row.onlyOn providerId && isLinked seed row) =
      if (refreshed describe providerId projects remote).any
        (fun row => row.isLocal && isLinked seed row) then 0 else 1
  listed : ∀ row ∈ refreshed describe providerId projects remote, row.onlyOn providerId = true →
    ∃ seed ∈ remote, isLinked seed row = true
  again : refreshed describe providerId (refreshed describe providerId projects remote) remote =
    refreshed describe providerId projects remote

variable (describe projects providerId remote) in
/-- A refresh reconciles exactly when every local row behind the first of its handle carried the
metadata already. -/
theorem reconciles_iff (hcatalogued : Catalogued projects)
    (hseeds : ∀ seed ∈ remote, seed.providerId = providerId) :
    Reconciles describe providerId projects remote ↔
      (projects.filter Project.isLocal).Pairwise fun first row =>
        first.handleOn providerId = row.handleOn providerId → Carries remote row := by
  constructor
  · intro h
    exact (refreshed_carried_iff hseeds hcatalogued).mp h.carried
  · intro h
    exact {
      locals := refreshed_locals hseeds
      others := refreshed_others hseeds hcatalogued
      carried := (refreshed_carried_iff hseeds hcatalogued).mpr h
      shown := fun seed => refreshed_shown hseeds hcatalogued
      listed := fun row => refreshed_listed hseeds hcatalogued
      again := refreshed_again hseeds }

end Refresh

/-! A restored duplicate. -/

def nightSeed : RemoteProjectSeed Unit Unit where
  providerId := "studio-nas"
  providerName := "Studio NAS"
  handle := "night-drive"
  head := ()
  name := "Night Drive"
  fileName := "Night Drive.als"
  format := .abletonLiveSet
  metadata := ⟨some "Ambient", ["mastered"]⟩
  location := none
  updatedAt := 1750000000
  info := none

/-- A local copy that is linked to the handle, with the metadata from before. -/
def nightCopy (file : String) : Project Unit Unit where
  id := "project:/music/" ++ file
  name := "Night Drive"
  fileName := file
  localPath := "/music"
  format := .abletonLiveSet
  status := .downloaded
  modifiedAt := some 0
  backedUpAt := some 0
  addedAt := some 0
  liveSet := some ["music", file]
  remote := some ⟨"studio-nas", "night-drive", ()⟩
  providerHandles := ⟨[("studio-nas", "night-drive")], List.pairwise_singleton _ _⟩
  metadata := ⟨none, []⟩
  location := none
  shown := ()

/-- A project and its restored duplicate. -/
def nightCopies : List (Project Unit Unit) :=
  [nightCopy "Night Drive.als", nightCopy "Night Drive (restored).als"]

/-- The duplicate keeps its old metadata. -/
theorem duplicate_keeps_metadata :
    ¬ Reconciles (fun _ => ()) "studio-nas" nightCopies [nightSeed] := by
  intro h
  have hmem : nightCopy "Night Drive (restored).als" ∈
      refreshed (fun _ => ()) "studio-nas" nightCopies [nightSeed] :=
    List.mem_cons_of_mem _ List.mem_cons_self
  have hcarries := h.carried _ hmem rfl nightSeed rfl
  exact absurd hcarries (by decide)

/-- One copy and one seed. -/
theorem night_reconciles :
    Reconciles (fun _ => ()) "studio-nas" [nightCopy "Night Drive.als"] [nightSeed] ↔
      ([nightCopy "Night Drive.als"].filter Project.isLocal).Pairwise fun first row =>
        first.handleOn "studio-nas" = row.handleOn "studio-nas" → Carries [nightSeed] row := by
  apply reconciles_iff
  · intro project hproject hfile
    rw [List.mem_singleton.mp hproject] at hfile
    cases hfile
  · intro seed hseed
    rw [List.mem_singleton.mp hseed]
    rfl

end AuruPm.Library
