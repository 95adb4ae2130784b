import AuruPm.ServerState
import AuruPm.Lib.Rekey
import AuruPm.Lib.Worklist

/-!
# Claiming the projects of the time before owners

At startup the projects without an owner are given to one principal and move to the keys of
owned projects. What they may read afterwards is collected from their history: the commits that
a walk from the head visits, the blobs that these name, and the entries of every such blob that
reads as a sample manifest.
-/

namespace AuruPm

set_option autoImplicit false

open SortedAssoc

namespace Server

/-- `AuthenticationConfig`, as far as it names an owner. -/
inductive AuthenticationConfig where
  | none
  | oauth (issuer : String) (legacyOwnerSubject : Option String)

inductive OwnershipError where
  | unclaimed
  | occupied (handle : String)
  | persist (error : String)
  /-- A project that was listed is gone. -/
  | absent
  /-- A loop that would never end. -/
  | endless

def OwnershipError.text : OwnershipError → String
  | .unclaimed =>
    "existing projects have no owner; set authentication.legacy_owner_subject to explicitly claim them"
  | .occupied handle =>
    "cannot migrate legacy project `" ++ handle ++ "` because its owned destination already exists"
  | .persist error => "persist project ownership migration: " ++ error
  | .absent => "legacy project was discovered above"
  | .endless => ""

def AuthenticationConfig.legacyOwner : AuthenticationConfig → Except OwnershipError Principal
  | .none => .ok ⟨"local", "local-user"⟩
  | .oauth issuer (some subject) => .ok ⟨issuer, subject⟩
  | .oauth _ .none => .error .unclaimed

/-! What a stored commit names. -/

def treeSnapshot (value : Value) : Option String :=
  ((value.get "tree").bind fun tree => tree.get "snapshot").bind Value.asStr

def treeSamples (value : Value) : Option String :=
  ((value.get "tree").bind fun tree => tree.get "samples").bind Value.asStr

def commitFields (value : Value) : List String :=
  (treeSnapshot value).toList ++ (treeSamples value).toList ++
    ((value.get "metadata").bind Value.asStr).toList

def parentIds (value : Value) : List String :=
  (((value.get "parents").bind Value.asArray).getD []).filterMap Value.asStr

section Claim
variable {Bytes Hash : Type} (F : Formats Bytes Hash) (faults : Faults)

/-- A commit that the walk pops, with its value if it is stored. -/
abbrev Visited := String × Option Value

def lookCommit (commits : List (String × Value)) (id : String) : Except OwnershipError Visited :=
  .ok (id, get? commits id)

def visitedParents (_ : String) (visited : Visited) : List String := visited.2.elim [] parentIds

def visitedFields (visited : Visited) : List String := visited.2.elim [] commitFields

def addKeys (keys : List String) (set : List String) : List String :=
  keys.foldl (fun set key => insertKey key set) set

/-- The entries of a blob that reads as a manifest. A blob that cannot be read has none. -/
def manifestEntries (s : State Bytes) (hash : String) : List String :=
  match s.readBlob faults hash with
  | .ok (some bytes) =>
    match F.decodeManifest bytes with
    | .ok manifest => manifest.entries.map fun entry => F.hashText entry.hash
    | .error _ => []
  | _ => []

def walkBudget (commits : List (String × Value)) (head : Option String) : Nat :=
  Worklist.budget (lookCommit commits) visitedParents (commits.map Prod.fst) head.toList

def collectLegacyEntitlements (s : State Bytes) (project : StoredProject) :
    Except OwnershipError StoredProject := do
  let visited ← Worklist.collect .endless (lookCommit s.db.commits) visitedParents
    (walkBudget s.db.commits project.head) project.head.toList project.commits []
  let commits := addKeys (visited.map Prod.fst) project.commits
  let blobs := addKeys (visited.flatMap visitedFields) project.blobs
  return { project with
    commits := commits, blobs := addKeys (blobs.flatMap (manifestEntries F faults s)) blobs }

def State.withProjects (s : State Bytes) (projects : List (String × StoredProject)) : State Bytes :=
  { s with db := { s.db with projects := projects } }

def legacyHandles (db : Db Bytes) : List String :=
  (db.projects.filter fun entry => entry.2.owner.isNone).map Prod.fst

/-- Takes the ownerless projects out, one by one, each with what it may read. -/
def takeLegacy (owner : Principal) :
    List String → State Bytes →
      Except OwnershipError (State Bytes × List (String × StoredProject))
  | [], s => .ok (s, [])
  | handle :: handles, s =>
    match get? s.db.projects handle with
    | none => .error .absent
    | some project => do
      let taken := s.withProjects (erase handle s.db.projects)
      let claimed ← collectLegacyEntitlements F faults taken
        { project with owner := some owner, handle := some handle }
      let (rest, replacements) ← takeLegacy owner handles taken
      return (rest, (projectKey owner handle, claimed) :: replacements)

/-- `Db::persist` -/
def Db.persist (db : Db Bytes) : Except String Unit :=
  if db.dataDir = false then .ok ()
  else
    match faults.persist with
    | some error => .error error
    | none => .ok ()

def State.prepareOwnership (authentication : AuthenticationConfig) (s : State Bytes) :
    State Bytes × Except OwnershipError Unit :=
  if legacyHandles s.db = [] then (s, .ok ())
  else
    match authentication.legacyOwner with
    | .error error => (s, .error error)
    | .ok owner =>
      match (legacyHandles s.db).find? fun handle =>
          (get? s.db.projects (projectKey owner handle)).isSome with
      | some handle => (s, .error (.occupied handle))
      | none =>
        match takeLegacy F faults owner (legacyHandles s.db) s with
        | .error error => (s, .error error)
        | .ok (taken, replacements) =>
          let claimed := taken.withProjects
            (replacements.foldl (fun projects entry => SortedAssoc.insert entry.1 entry.2 projects)
              taken.db.projects)
          (claimed, (claimed.db.persist faults).mapError .persist)

/-! History. -/

/-- A stored commit names the other one as a parent. -/
def ParentOf (commits : List (String × Value)) (child parent : String) : Prop :=
  ∃ value, get? commits child = some value ∧ parent ∈ parentIds value

def InLineage (commits : List (String × Value)) (head : Option String) (id : String) : Prop :=
  ∃ top, head = some top ∧ Relation.ReflTransGen (ParentOf commits) top id

/-- A stored commit of the history names the blob. -/
def NamedBy (commits : List (String × Value)) (head : Option String) (hash : String) : Prop :=
  ∃ id value, InLineage commits head id ∧ get? commits id = some value ∧ hash ∈ commitFields value

/-- A commit of the history names the blob, or a manifest that it names and that can be read. -/
def Entitled (s : State Bytes) (head : Option String) (hash : String) : Prop :=
  NamedBy s.db.commits head hash ∨
    ∃ blob, NamedBy s.db.commits head blob ∧ hash ∈ manifestEntries F faults s blob

theorem marked_iff_inLineage {commits : List (String × Value)} {head : Option String}
    {id : String} :
    Worklist.Marked (lookCommit commits) visitedParents head.toList id ↔
      InLineage commits head id := by
  constructor
  · intro h
    induction h with
    | root hk => exact ⟨_, Option.mem_toList.mp hk, .refl⟩
    | step _ hr hk ih =>
      obtain ⟨top, hhead, hpath⟩ := ih
      cases hr
      refine ⟨top, hhead, hpath.tail ?_⟩
      unfold visitedParents at hk
      cases hget : get? commits _ with
      | none =>
        rw [hget] at hk
        cases hk
      | some value =>
        rw [hget] at hk
        exact ⟨value, hget, hk⟩
  · rintro ⟨top, hhead, hpath⟩
    induction hpath with
    | refl => exact .root (Option.mem_toList.mpr hhead)
    | tail _ hstep ih =>
      obtain ⟨value, hget, hparent⟩ := hstep
      refine .step ih rfl ?_
      rw [visitedParents, hget]
      exact hparent

theorem mem_addKeys {key : String} {keys set : List String} :
    key ∈ addKeys keys set ↔ key ∈ keys ∨ key ∈ set := by
  induction keys generalizing set with
  | nil => simp [addKeys]
  | cons k keys ih =>
    rw [addKeys, List.foldl_cons, ← addKeys, ih, mem_insertKey, List.mem_cons]
    tauto

theorem walk_ends (commits : List (String × Value)) (head : Option String) :
    ∃ visited, Worklist.collect OwnershipError.endless (lookCommit commits) visitedParents
      (walkBudget commits head) head.toList [] [] = .ok visited := by
  have hstored : ∀ id visited, lookCommit commits id = .ok visited →
      visitedParents id visited ≠ [] → id ∈ commits.map Prod.fst := by
    intro id visited hr hn
    cases hr
    refine get?_isSome_iff.mp (Option.isSome_iff_ne_none.mpr fun hnone => hn ?_)
    rw [visitedParents, hnone]
    rfl
  refine Worklist.collect_ok_of_pushing hstored (fun id _ => ⟨_, rfl⟩) ?_
  simp [walkBudget, Worklist.budget]

/-- What is collected for a project that had nothing yet. -/
structure Collected (s : State Bytes) (project claimed : StoredProject) : Prop where
  owner : claimed.owner = project.owner
  head : claimed.head = project.head
  historyFloor : claimed.historyFloor = project.historyFloor
  profile : claimed.profile = project.profile
  commits : ∀ id, id ∈ claimed.commits ↔ InLineage s.db.commits project.head id
  blobs : ∀ hash, hash ∈ claimed.blobs ↔ Entitled F faults s project.head hash

variable {F faults} {s : State Bytes}

theorem collectLegacyEntitlements_ok {project : StoredProject} (hcommits : project.commits = [])
    (hblobs : project.blobs = []) :
    ∃ claimed, collectLegacyEntitlements F faults s project = .ok claimed ∧
      Collected F faults s project claimed := by
  obtain ⟨visited, hvisited⟩ := walk_ends s.db.commits project.head
  have hmem : ∀ id value, (id, value) ∈ visited ↔
      InLineage s.db.commits project.head id ∧ get? s.db.commits id = value := by
    intro id value
    have hkey : ∀ id visited, lookCommit s.db.commits id = .ok visited → visited.1 = id := by
      intro id visited hr
      cases hr
      rfl
    rw [Worklist.mem_collect_iff hkey hvisited, marked_iff_inLineage]
    simp [lookCommit]
  have hnamed : ∀ hash, hash ∈ visited.flatMap visitedFields ↔
      NamedBy s.db.commits project.head hash := by
    intro hash
    rw [List.mem_flatMap]
    constructor
    · rintro ⟨⟨id, value⟩, hv, hash'⟩
      obtain ⟨hid, hget⟩ := (hmem id value).mp hv
      cases value with
      | none => cases hash'
      | some value => exact ⟨id, value, hid, hget, hash'⟩
    · rintro ⟨id, value, hid, hget, hfield⟩
      exact ⟨(id, some value), (hmem id _).mpr ⟨hid, hget⟩, hfield⟩
  let commits := addKeys (visited.map Prod.fst) project.commits
  let blobs := addKeys (visited.flatMap visitedFields) project.blobs
  refine ⟨{ project with
    commits := commits, blobs := addKeys (blobs.flatMap (manifestEntries F faults s)) blobs },
    ?_, rfl, rfl, rfl, rfl, ?_, ?_⟩
  · rw [collectLegacyEntitlements, hcommits, hvisited, ← hcommits]
    rfl
  · intro id
    have hset : id ∈ commits ↔ id ∈ visited.map Prod.fst := by
      rw [mem_addKeys, hcommits]
      simp
    rw [hset, List.mem_map]
    constructor
    · rintro ⟨⟨_, value⟩, hv, rfl⟩
      exact ((hmem _ value).mp hv).1
    · intro hid
      exact ⟨(id, _), (hmem id _).mpr ⟨hid, rfl⟩, rfl⟩
  · intro hash
    have hfields : ∀ blob, blob ∈ blobs ↔ NamedBy s.db.commits project.head blob := by
      intro blob
      rw [mem_addKeys, hblobs, hnamed]
      simp
    rw [mem_addKeys, List.mem_flatMap, hfields, Entitled, or_comm]
    simp only [hfields]

/-! The new keys. -/

theorem Collected.withProjects {projects : List (String × StoredProject)}
    {project claimed : StoredProject}
    (h : Collected F faults (s.withProjects projects) project claimed) :
    Collected F faults s project claimed :=
  ⟨h.owner, h.head, h.historyFloor, h.profile, h.commits, h.blobs⟩

/-- A project under its new owner, before anything is collected. -/
def StoredProject.ownedBy (project : StoredProject) (owner : Principal) (handle : String) :
    StoredProject :=
  { project with owner := some owner, handle := some handle }

variable (F faults) in
theorem takeLegacy_ok (owner : Principal) {handles : List String} (hnodup : handles.Nodup)
    (hin : ∀ handle ∈ handles, ∃ project, get? s.db.projects handle = some project ∧
      project.commits = [] ∧ project.blobs = []) :
    ∃ replacements, takeLegacy F faults owner handles s =
        .ok (s.withProjects (handles.foldl (fun projects key => erase key projects) s.db.projects),
          replacements) ∧
      replacements.map Prod.fst = handles.map (projectKey owner) ∧
      ∀ handle ∈ handles, ∃ project claimed, get? s.db.projects handle = some project ∧
        (projectKey owner handle, claimed) ∈ replacements ∧
          Collected F faults s (project.ownedBy owner handle) claimed := by
  induction handles generalizing s with
  | nil => exact ⟨[], rfl, rfl, fun _ h => nomatch h⟩
  | cons handle handles ih =>
    obtain ⟨hnew, hnodup⟩ := List.nodup_cons.mp hnodup
    obtain ⟨project, hget, hcommits, hblobs⟩ := hin handle List.mem_cons_self
    have hcollects : ∃ claimed, collectLegacyEntitlements F faults
        (s.withProjects (erase handle s.db.projects)) (project.ownedBy owner handle) = .ok claimed ∧
          Collected F faults (s.withProjects (erase handle s.db.projects))
            (project.ownedBy owner handle) claimed :=
      collectLegacyEntitlements_ok hcommits hblobs
    obtain ⟨claimed, hclaimed, hcollected⟩ := hcollects
    have hkept : ∀ other ∈ handles,
        get? (erase handle s.db.projects) other = get? s.db.projects other := by
      intro other hother
      have hne : other ≠ handle := fun heq => hnew (heq ▸ hother)
      rw [get?_erase, if_neg hne]
    obtain ⟨replacements, htake, hkeys, hall⟩ :=
      ih (s := s.withProjects (erase handle s.db.projects)) hnodup fun other hother => by
        obtain ⟨found, hfound, hempty⟩ := hin other (List.mem_cons_of_mem handle hother)
        exact ⟨found, (hkept other hother).trans hfound, hempty⟩
    refine ⟨(projectKey owner handle, claimed) :: replacements, ?_, ?_, ?_⟩
    · unfold StoredProject.ownedBy at hclaimed
      simp only [takeLegacy, hget, hclaimed, htake]
      rfl
    · rw [List.map_cons, List.map_cons, hkeys]
    · intro other hother
      rcases List.mem_cons.mp hother with rfl | hother
      · exact ⟨project, claimed, hget, List.mem_cons_self, hcollected.withProjects⟩
      · obtain ⟨found, taken, hfound, hmem, hc⟩ := hall other hother
        exact ⟨found, taken, (hkept other hother).symm.trans hfound,
          List.mem_cons_of_mem _ hmem, hc.withProjects⟩

theorem mem_legacyHandles (hdistinct : (s.db.projects.map Prod.fst).Nodup) {handle : String} :
    handle ∈ legacyHandles s.db ↔
      ∃ project, get? s.db.projects handle = some project ∧ project.owner = none := by
  rw [legacyHandles, List.mem_map]
  constructor
  · rintro ⟨⟨_, project⟩, hmem, rfl⟩
    obtain ⟨hmem, howner⟩ := List.mem_filter.mp hmem
    exact ⟨project, Rekey.get?_of_mem_of_nodup hdistinct hmem, Option.isNone_iff_eq_none.mp howner⟩
  · rintro ⟨project, hget, howner⟩
    refine ⟨(handle, project), List.mem_filter.mpr ⟨mem_of_get? hget, ?_⟩, rfl⟩
    rw [howner]
    rfl

theorem nodup_legacyHandles (hdistinct : (s.db.projects.map Prod.fst).Nodup) :
    (legacyHandles s.db).Nodup :=
  hdistinct.sublist (List.filter_sublist.map Prod.fst)

theorem nodup_projectKeys (owner : Principal) {handles : List String} (h : handles.Nodup) :
    (handles.map (projectKey owner)).Nodup :=
  h.map fun _ _ heq => (projectKey_inj heq).2

/-! What the migration leaves behind. -/

/-- Where the project of a key is found after the migration. -/
def AuthenticationConfig.place (authentication : AuthenticationConfig) (db : Db Bytes)
    (key : String) : String :=
  match authentication.legacyOwner with
  | .ok owner => if key ∈ legacyHandles db then projectKey owner key else key
  | .error _ => key

variable (F) in
/-- A formerly ownerless project keeps its data and may read its whole history. -/
structure Inherits (s : State Bytes) (project project' : StoredProject) : Prop where
  head : project'.head = project.head
  historyFloor : project'.historyFloor = project.historyFloor
  profile : project'.profile = project.profile
  commits : ∀ id, InLineage s.db.commits project.head id → (get? s.db.commits id).isSome →
    id ∈ project'.commits
  fields : ∀ id value, InLineage s.db.commits project.head id → get? s.db.commits id = some value →
    ∀ hash ∈ commitFields value, hash ∈ project'.blobs
  entries : ∀ id value, InLineage s.db.commits project.head id → get? s.db.commits id = some value →
    ∀ samples bytes manifest, treeSamples value = some samples → s.blob? samples = some bytes →
      F.decodeManifest bytes = .ok manifest →
        ∀ entry ∈ manifest.entries, F.hashText entry.hash ∈ project'.blobs

variable (F) in
structure Succeeds (s : State Bytes) (project project' : StoredProject) : Prop where
  owned : project'.owner.isSome
  kept : project.owner.isSome → project' = project
  inherits : project.owner = none → Inherits F s project project'

variable (F) in
/-- A successful migration loses nothing, one that meets an occupied key changes nothing, and
every migration ends. -/
structure LosesNothing (authentication : AuthenticationConfig) (s : State Bytes)
    (result : State Bytes × Except OwnershipError Unit) : Prop where
  claimed : result.2 = .ok () →
    Rekey.Moved (authentication.place s.db) (Succeeds F s) s.db.projects result.1.db.projects
  unchanged : ∀ handle, result.2 = .error (.occupied handle) → result.1 = s
  ends : result.2 ≠ .error .endless ∧ result.2 ≠ .error .absent

variable (faults) in
/-- There is an owner, every destination is free, and the new state can be saved. -/
structure Claimable (authentication : AuthenticationConfig) (s : State Bytes) (owner : Principal) :
    Prop where
  named : authentication.legacyOwner = .ok owner
  free : ∀ handle ∈ legacyHandles s.db, get? s.db.projects (projectKey owner handle) = none
  saved : s.db.persist faults = .ok ()

variable (F faults) in
/-- Every entry of a stored manifest that cannot be read is also named by a commit, or is also an
entry of a manifest that can be read. -/
def UnreadCovered (s : State Bytes) (head : Option String) : Prop :=
  ∀ id value, InLineage s.db.commits head id → get? s.db.commits id = some value →
    ∀ samples bytes manifest error, treeSamples value = some samples →
      s.readBlob faults samples = .error error → s.blob? samples = some bytes →
        F.decodeManifest bytes = .ok manifest →
          ∀ entry ∈ manifest.entries, Entitled F faults s head (F.hashText entry.hash)

variable (F faults s) in
/-- How a migration can end. -/
inductive Prepared (authentication : AuthenticationConfig) :
    State Bytes × Except OwnershipError Unit → Prop
  | idle (h : legacyHandles s.db = []) : Prepared authentication (s, .ok ())
  | unclaimed (h : authentication.legacyOwner = .error .unclaimed) :
      Prepared authentication (s, .error .unclaimed)
  | occupied {owner : Principal} {handle : String} (named : authentication.legacyOwner = .ok owner)
      (legacy : handle ∈ legacyHandles s.db)
      (taken : get? s.db.projects (projectKey owner handle) ≠ none) :
      Prepared authentication (s, .error (.occupied handle))
  | claimed {owner : Principal} {news : List (String × StoredProject)}
      (named : authentication.legacyOwner = .ok owner)
      (free : ∀ handle ∈ legacyHandles s.db, get? s.db.projects (projectKey owner handle) = none)
      (keys : news.map Prod.fst = (legacyHandles s.db).map (projectKey owner))
      (collected : ∀ handle ∈ legacyHandles s.db, ∃ project claimed,
        get? s.db.projects handle = some project ∧ (projectKey owner handle, claimed) ∈ news ∧
          Collected F faults s (project.ownedBy owner handle) claimed) :
      Prepared authentication
        (s.withProjects (Rekey.rekey (legacyHandles s.db) news s.db.projects),
          (s.db.persist faults).mapError .persist)

variable (F faults) in
theorem prepareOwnership_cases (hdistinct : (s.db.projects.map Prod.fst).Nodup)
    (hbefore : ∀ handle project, get? s.db.projects handle = some project →
      project.owner = none → project.commits = [] ∧ project.blobs = [])
    (authentication : AuthenticationConfig) :
    Prepared F faults s authentication (s.prepareOwnership F faults authentication) := by
  unfold State.prepareOwnership
  split
  · rename_i hnone
    exact .idle hnone
  · cases hnamed : authentication.legacyOwner with
    | error error =>
      have herror : error = .unclaimed := by
        unfold AuthenticationConfig.legacyOwner at hnamed
        split at hnamed <;> cases hnamed
        rfl
      subst herror
      exact .unclaimed hnamed
    | ok owner =>
      simp only
      split
      · rename_i hfound
        have htaken := List.find?_some hfound
        exact .occupied hnamed (List.mem_of_find?_eq_some hfound)
          (Option.isSome_iff_ne_none.mp htaken)
      · rename_i hfree
        have hin : ∀ handle ∈ legacyHandles s.db, ∃ project,
            get? s.db.projects handle = some project ∧ project.commits = [] ∧
              project.blobs = [] := by
          intro handle hhandle
          obtain ⟨project, hget, howner⟩ := (mem_legacyHandles hdistinct).mp hhandle
          exact ⟨project, hget, hbefore handle project hget howner⟩
        obtain ⟨news, htake, hkeys, hall⟩ :=
          takeLegacy_ok F faults owner (nodup_legacyHandles hdistinct) hin
        rw [htake]
        refine .claimed hnamed ?_ hkeys hall
        intro handle hhandle
        exact Option.not_isSome_iff_eq_none.mp (List.find?_eq_none.mp hfree handle hhandle)

theorem place_of_mem {authentication : AuthenticationConfig} {owner : Principal} {key : String}
    (hnamed : authentication.legacyOwner = .ok owner) (hkey : key ∈ legacyHandles s.db) :
    authentication.place s.db key = projectKey owner key := by
  unfold AuthenticationConfig.place
  rw [hnamed]
  exact if_pos hkey

theorem place_of_notMem {authentication : AuthenticationConfig} {key : String}
    (hkey : key ∉ legacyHandles s.db) : authentication.place s.db key = key := by
  unfold AuthenticationConfig.place
  split
  · exact if_neg hkey
  · rfl

theorem readBlob_ok_eq {hash : String} {found : Option Bytes} {bytes : Bytes}
    (hread : s.readBlob faults hash = .ok found) (hbytes : s.blob? hash = some bytes) :
    found = some bytes := by
  unfold State.readBlob at hread
  unfold State.blob? at hbytes
  split at hread
  · rename_i hdir
    rw [if_pos hdir] at hbytes
    cases hread
    exact hbytes
  · rename_i hdir
    rw [if_neg hdir] at hbytes
    split at hread
    · cases hread
    · cases hread
      exact hbytes

theorem Collected.inherits {project claimed : StoredProject} {owner : Principal} {handle : String}
    (h : Collected F faults s (project.ownedBy owner handle) claimed)
    (hcovered : UnreadCovered F faults s project.head) :
    Inherits F s project claimed := by
  have hfields : ∀ id value, InLineage s.db.commits project.head id →
      get? s.db.commits id = some value → ∀ hash ∈ commitFields value,
        NamedBy s.db.commits project.head hash :=
    fun id value hid hget hash hhash => ⟨id, value, hid, hget, hhash⟩
  refine ⟨h.head, h.historyFloor, h.profile, fun id hid _ => (h.commits id).mpr hid,
    fun id value hid hget hash hhash => (h.blobs hash).mpr (.inl (hfields id value hid hget hash hhash)),
    ?_⟩
  intro id value hid hget samples bytes manifest hsamples hbytes hdecode entry hentry
  apply (h.blobs _).mpr
  cases hread : s.readBlob faults samples with
  | error error =>
    exact hcovered id value hid hget samples bytes manifest error hsamples hread hbytes hdecode
      entry hentry
  | ok found =>
    have hnamed : samples ∈ commitFields value := by simp [commitFields, hsamples]
    refine .inr ⟨samples, hfields id value hid hget samples hnamed, ?_⟩
    have hfound : found = some bytes := readBlob_ok_eq hread hbytes
    rw [hfound] at hread
    simp only [manifestEntries, hread, hdecode]
    exact List.mem_map_of_mem hentry

/-- A project that has an owner succeeds itself. -/
theorem succeeds_of_notMem {key : String} {project : StoredProject}
    (hdistinct : (s.db.projects.map Prod.fst).Nodup) (hget : get? s.db.projects key = some project)
    (hkey : key ∉ legacyHandles s.db) : Succeeds F s project project := by
  have hsome : project.owner.isSome := by
    apply Option.isSome_iff_ne_none.mpr
    exact fun hnone => hkey ((mem_legacyHandles hdistinct).mpr ⟨project, hget, hnone⟩)
  refine ⟨hsome, fun _ => rfl, fun hnone => ?_⟩
  rw [hnone] at hsome
  cases hsome

/-- After a migration that could claim, the collected projects are at the new keys. -/
theorem moved_of_collected {authentication : AuthenticationConfig} {owner : Principal}
    {news : List (String × StoredProject)} (hdistinct : (s.db.projects.map Prod.fst).Nodup)
    (hnamed : authentication.legacyOwner = .ok owner)
    (hfree : ∀ handle ∈ legacyHandles s.db, get? s.db.projects (projectKey owner handle) = none)
    (hkeys : news.map Prod.fst = (legacyHandles s.db).map (projectKey owner))
    (hcollected : ∀ handle ∈ legacyHandles s.db, ∃ project claimed,
      get? s.db.projects handle = some project ∧ (projectKey owner handle, claimed) ∈ news ∧
        Collected F faults s (project.ownedBy owner handle) claimed)
    (hcovered : ∀ handle project, get? s.db.projects handle = some project →
      project.owner = none → UnreadCovered F faults s project.head) :
    Rekey.Moved (authentication.place s.db) (Succeeds F s) s.db.projects
      (Rekey.rekey (legacyHandles s.db) news s.db.projects) := by
  have hplaces : (legacyHandles s.db).map (authentication.place s.db) =
      (legacyHandles s.db).map (projectKey owner) :=
    List.map_congr_left fun _ hkey => place_of_mem hnamed hkey
  apply Rekey.moved_rekey
  · rw [hplaces, hkeys]
  · rw [hplaces]
    exact nodup_projectKeys owner (nodup_legacyHandles hdistinct)
  · intro handle hhandle
    rw [place_of_mem hnamed hhandle]
    exact hfree handle hhandle
  · exact fun key _ hkey => place_of_notMem hkey
  · intro handle hhandle
    obtain ⟨project, claimed, hget, hmem, hc⟩ := hcollected handle hhandle
    obtain ⟨found, hfound, hnone⟩ := (mem_legacyHandles hdistinct).mp hhandle
    obtain rfl : project = found := Option.some.inj (hget.symm.trans hfound)
    refine ⟨project, claimed, hget, ?_, ?_, ?_, ?_⟩
    · rwa [place_of_mem hnamed hhandle]
    · rw [hc.owner]
      rfl
    · intro hsome
      rw [hnone] at hsome
      cases hsome
    · exact fun _ => hc.inherits (hcovered handle project hget hnone)
  · exact fun key project hget hkey => succeeds_of_notMem hdistinct hget hkey

/-- The migration loses nothing exactly if what it cannot read is covered. -/
theorem losesNothing_iff (F : Formats Bytes Hash) (faults : Faults) (s : State Bytes)
    (hdistinct : (s.db.projects.map Prod.fst).Nodup)
    (hbefore : ∀ handle project, get? s.db.projects handle = some project →
      project.owner = none → project.commits = [] ∧ project.blobs = [])
    (authentication : AuthenticationConfig) :
    LosesNothing F authentication s (s.prepareOwnership F faults authentication) ↔
      ((∃ owner, Claimable faults authentication s owner) →
        ∀ handle project, get? s.db.projects handle = some project → project.owner = none →
          UnreadCovered F faults s project.head) := by
  have hcases := prepareOwnership_cases F faults hdistinct hbefore authentication
  generalize s.prepareOwnership F faults authentication = result at hcases
  constructor
  · rintro hloses ⟨owner, hclaimable⟩ handle project hget hnone id value hid hcommit samples bytes
      manifest error hsamples _ hbytes hdecode entry hentry
    have hhandle : handle ∈ legacyHandles s.db :=
      (mem_legacyHandles hdistinct).mpr ⟨project, hget, hnone⟩
    cases hcases with
    | idle hidle =>
      rw [hidle] at hhandle
      cases hhandle
    | unclaimed hunclaimed =>
      rw [hclaimable.named] at hunclaimed
      cases hunclaimed
    | occupied hnamed hlegacy htaken =>
      cases hnamed.symm.trans hclaimable.named
      exact absurd (hclaimable.free _ hlegacy) htaken
    | @claimed owner' news hnamed hfree hkeys hcollected =>
      obtain rfl : owner' = owner := Except.ok.inj (hnamed.symm.trans hclaimable.named)
      have hsaved : (s.db.persist faults).mapError OwnershipError.persist = .ok () := by
        rw [hclaimable.saved]
        rfl
      obtain ⟨project', hget', hsucceeds⟩ := (hloses.claimed hsaved).moved handle project hget
      obtain ⟨found, claimed, hfound, hmem, hc⟩ := hcollected handle hhandle
      obtain rfl : project = found := Option.some.inj (hget.symm.trans hfound)
      have hplaces : (legacyHandles s.db).map (authentication.place s.db) =
          (legacyHandles s.db).map (projectKey owner') :=
        List.map_congr_left fun _ hkey => place_of_mem hnamed hkey
      have hthere : get? (Rekey.rekey (legacyHandles s.db) news s.db.projects)
          (authentication.place s.db handle) = some claimed := by
        rw [place_of_mem hnamed hhandle]
        refine Rekey.get?_rekey_old hkeys ?_ hmem
        exact nodup_projectKeys owner' (nodup_legacyHandles hdistinct)
      obtain rfl : claimed = project' := Option.some.inj (hthere.symm.trans hget')
      have hin := (hsucceeds.inherits hnone).entries id value hid hcommit samples bytes manifest
        hsamples hbytes hdecode entry hentry
      exact (hc.blobs _).mp hin
  · intro hcovered
    cases hcases with
    | idle hidle =>
      refine ⟨fun _ => ?_, fun _ h => (nomatch h), (nomatch ·), (nomatch ·)⟩
      have hnot : ∀ key, key ∉ legacyHandles s.db := by
        intro key
        rw [hidle]
        exact List.not_mem_nil
      apply Rekey.Moved.refl
      · exact fun key _ => place_of_notMem (hnot key)
      · exact fun key project hget => succeeds_of_notMem hdistinct hget (hnot key)
    | unclaimed => exact ⟨(nomatch ·), fun _ h => (nomatch h), (nomatch ·), (nomatch ·)⟩
    | occupied => exact ⟨(nomatch ·), fun _ _ => rfl, (nomatch ·), (nomatch ·)⟩
    | @claimed owner news hnamed hfree hkeys hcollected =>
      cases hsaved : s.db.persist faults with
      | error error => exact ⟨(nomatch ·), fun _ h => (nomatch h), (nomatch ·), (nomatch ·)⟩
      | ok =>
        refine ⟨fun _ => ?_, fun _ h => (nomatch h), (nomatch ·), (nomatch ·)⟩
        exact moved_of_collected hdistinct hnamed hfree hkeys hcollected
          (hcovered ⟨owner, hnamed, hfree, hsaved⟩)

end Claim

/-! A project with one sample. -/

def kickManifest : String :=
  "\x7b\"entries\":[\x7b\"path\":\"kick.wav\",\"hash\":\"kick\",\"size\":4\x7d]\x7d"

def kickEntry : SampleEntry String := ⟨"kick.wav", "kick", 4, .sample, none⟩

def kickFormats : Formats String String :=
  { takeFormats with
    decodeManifest := fun text =>
      if text = kickManifest then .ok ⟨[kickEntry]⟩ else .error "expected value" }

theorem kickFormats_decode : kickFormats.decodeManifest kickManifest = .ok ⟨[kickEntry]⟩ := by
  simp [kickFormats]

def kickCommit : Value :=
  .object [("parents", .array []),
    ("tree", .object [("samples", .string "samples"), ("snapshot", .string "snapshot")])]

def legacySong : StoredProject := { head := some "take" }

def legacyState : State String :=
  ⟨⟨[], [("take", kickCommit)], [("song", legacySong)], true⟩,
    [("samples", kickManifest), ("snapshot", "snapshot")]⟩

theorem legacyState_before (handle : String) (project : StoredProject)
    (hget : get? legacyState.db.projects handle = some project) (_ : project.owner = none) :
    project.commits = [] ∧ project.blobs = [] := by
  obtain ⟨_, rfl⟩ : handle = "song" ∧ project = legacySong := by
    simpa [legacyState] using mem_of_get? hget
  exact ⟨rfl, rfl⟩

theorem legacyState_claimed :
    LosesNothing kickFormats .none legacyState
      (legacyState.prepareOwnership kickFormats {} .none) := by
  refine (losesNothing_iff kickFormats {} legacyState (by decide) legacyState_before .none).mpr ?_
  intro _ _ _ _ _ _ _ _ _ _ _ _ _ _ herror
  simp [State.readBlob, legacyState] at herror

def samplesDenied : Faults :=
  { readBlob := fun hash => if hash = "samples" then some "Permission denied" else none }

/-- A manifest that cannot be read just then leaves its samples to nobody. -/
theorem samplesDenied_loses :
    ¬ LosesNothing kickFormats .none legacyState
      (legacyState.prepareOwnership kickFormats samplesDenied .none) := by
  intro hloses
  have hok : (legacyState.prepareOwnership kickFormats samplesDenied .none).2 = .ok () := rfl
  obtain ⟨project', hget, hsucceeds⟩ := (hloses.claimed hok).moved "song" legacySong rfl
  have hblobs : (get? (legacyState.prepareOwnership kickFormats samplesDenied .none).1.db.projects
      (AuthenticationConfig.none.place legacyState.db "song")).map StoredProject.blobs =
        some ["samples", "snapshot"] := by decide +kernel
  rw [hget] at hblobs
  have hkick := (hsucceeds.inherits rfl).entries "take" kickCommit ⟨"take", rfl, .refl⟩ rfl "samples"
    kickManifest ⟨[kickEntry]⟩ (by decide) rfl kickFormats_decode kickEntry List.mem_cons_self
  rw [Option.some.inj hblobs] at hkick
  revert hkick
  decide

end Server

end AuruPm
