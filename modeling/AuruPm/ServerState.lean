import AuruPm.Server
import AuruPm.Lib.LengthPrefix
import Mathlib.Logic.Relation

/-!
# What the server keeps

A request changes the state in small steps, each of which stores a blob, writes a project of
its principal or records a commit. Every step keeps the state closed: a head is a commit of its
project, the parents and the blobs of a commit belong to its project, and what belongs to a
project is stored.
-/

namespace AuruPm

set_option autoImplicit false

open SortedAssoc

namespace Server

/-! Keys. -/

theorem projectKey_inj {owner owner' : Principal} {handle handle' : String}
    (h : projectKey owner handle = projectKey owner' handle') :
    owner = owner' ∧ handle = handle' := by
  have hkey : ∀ (o : Principal) (rest : String), projectKey o rest =
      LengthPrefix.field o.issuer ++ (":" ++ (LengthPrefix.field o.subject ++ (":" ++ rest))) := by
    intro o rest
    simp only [projectKey, LengthPrefix.field, String.append_assoc]
  have hcolon : ∀ {a b : String}, ":" ++ a = ":" ++ b → a = b := by
    intro a b hab
    have hlist := congrArg String.toList hab
    rw [String.toList_append, String.toList_append] at hlist
    exact String.toList_injective (List.append_cancel_left hlist)
  rw [hkey, hkey] at h
  obtain ⟨hissuer, hrest⟩ := LengthPrefix.field_append_inj h
  obtain ⟨hsubject, hlast⟩ := LengthPrefix.field_append_inj (hcolon hrest)
  obtain ⟨issuer, subject⟩ := owner
  obtain ⟨issuer', subject'⟩ := owner'
  simp only at hissuer hsubject
  exact ⟨by rw [hissuer, hsubject], hcolon hlast⟩

/-! Small steps. -/

section Steps
variable {Bytes : Type}

/-- The stored bytes of a blob. -/
def State.blob? (s : State Bytes) (hash : String) : Option Bytes :=
  if s.db.dataDir = false then get? s.db.blobs hash else get? s.files hash

def State.withBlob (s : State Bytes) (hash : String) (bytes : Bytes) : State Bytes :=
  if s.db.dataDir = false then
    { s with db := { s.db with blobs := SortedAssoc.insert hash bytes s.db.blobs } }
  else { s with files := SortedAssoc.insert hash bytes s.files }

def State.withProject (s : State Bytes) (owner : Principal) (handle : String)
    (project : StoredProject) : State Bytes :=
  { s with
    db := { s.db with
      projects := SortedAssoc.insert (projectKey owner handle) project s.db.projects } }

def State.withCommit (s : State Bytes) (id : String) (value : Value) : State Bytes :=
  { s with db := { s.db with commits := SortedAssoc.insert id value s.db.commits } }

@[simp] theorem withBlob_projects (s : State Bytes) (hash : String) (bytes : Bytes) :
    (s.withBlob hash bytes).db.projects = s.db.projects := by
  unfold State.withBlob
  split <;> rfl

@[simp] theorem withBlob_commits (s : State Bytes) (hash : String) (bytes : Bytes) :
    (s.withBlob hash bytes).db.commits = s.db.commits := by
  unfold State.withBlob
  split <;> rfl

@[simp] theorem withBlob_dataDir (s : State Bytes) (hash : String) (bytes : Bytes) :
    (s.withBlob hash bytes).db.dataDir = s.db.dataDir := by
  unfold State.withBlob
  split <;> rfl

theorem blob?_withBlob (s : State Bytes) (hash hash' : String) (bytes : Bytes) :
    (s.withBlob hash bytes).blob? hash' = if hash' = hash then some bytes else s.blob? hash' := by
  unfold State.blob?
  rw [withBlob_dataDir]
  cases h : s.db.dataDir with
  | false => simp [State.withBlob, h, get?_insert]
  | true => simp [State.withBlob, h, get?_insert]

variable {Hash : Type}

/-- The issuer of every identity that gets through. -/
def AuthState.issuer (auth : AuthState) : String :=
  match auth.mode with
  | .none => "local"
  | .oauth policy => policy.issuer

/-- Everything that a commit of a project refers to belongs to the project. -/
structure Accepted (c : Config Bytes Hash) (owner : Principal) (s : State Bytes)
    (project : StoredProject) (commit : Commit Hash) : Prop where
  typed : commit.Typed
  id : FilesystemProvider.computeCommitId (formats c.F c.jcs c.parseHash) commit = .ok commit.id
  author : commit.author.providerUserId = owner.subject
  parents : ∀ parent ∈ commit.parents, c.F.hashText parent ∈ project.commits
  blobs : ∀ hash ∈ requiredBlobs c.F commit, hash ∈ project.blobs
  manifest : ∃ bytes manifest, s.blob? (c.F.hashText commit.tree.samples) = some bytes ∧
    c.F.decodeManifest bytes = .ok manifest ∧
      ∀ entry ∈ manifest.entries, c.F.hashText entry.hash ∈ project.blobs

/-- What one principal can do to the state, a step at a time. -/
inductive Change (c : Config Bytes Hash) (owner : Principal) : State Bytes → State Bytes → Prop
  | blob {s : State Bytes} {hash : String} {bytes : Bytes}
      (parsed : c.parseHash hash = .ok (c.F.contentHash bytes)) :
      Change c owner s (s.withBlob hash bytes)
  | profile {s : State Bytes} (handle : String) (profile : ProjectProfile) :
      Change c owner s <| s.withProject owner handle <| registered profile <|
        (projectFor s.db owner handle).getD { owner := some owner, handle := some handle }
  | head {s : State Bytes} {handle id : String} {project : StoredProject} (updatedAt : Int)
      (found : projectFor s.db owner handle = some project) (committed : id ∈ project.commits) :
      Change c owner s <| s.withProject owner handle
        { project with head := some id, updatedAt := updatedAt }
  | floor {s : State Bytes} {handle : String} {project : StoredProject} (floor : String)
      (found : projectFor s.db owner handle = some project) :
      Change c owner s <| s.withProject owner handle { project with historyFloor := some floor }
  | listBlob {s : State Bytes} {handle hash : String} {project : StoredProject}
      (found : projectFor s.db owner handle = some project) (stored : (s.blob? hash).isSome) :
      Change c owner s <| s.withProject owner handle
        { project with blobs := insertKey hash project.blobs }
  | commit {s : State Bytes} {handle : String} {project : StoredProject} {commit : Commit Hash}
      (found : projectFor s.db owner handle = some project)
      (accepted : Accepted c owner s project commit) :
      Change c owner s <|
        (s.withCommit (c.F.hashText commit.id) (canonicalValue c.F commit)).withProject owner handle
          { project with commits := insertKey (c.F.hashText commit.id) project.commits }

def Changes (c : Config Bytes Hash) (owner : Principal) : State Bytes → State Bytes → Prop :=
  Relation.ReflTransGen (Change c owner)

variable {c : Config Bytes Hash} {owner : Principal} {s s' : State Bytes} {faults : Faults}

theorem Changes.single (h : Change c owner s s') : Changes c owner s s' :=
  Relation.ReflTransGen.single h

/-! What the handlers do. -/

def Response.isStorageError : Response Bytes → Bool
  | .error 500 _ _ => true
  | _ => false

/-- The status is 2xx, or 409. -/
def Response.accepted : Response Bytes → Bool
  | .error .. => false
  | .endless => false
  | _ => true

/-- A handler answers without a change, or stores a blob and then persists a change. -/
inductive Handled (c : Config Bytes Hash) (owner : Principal) (faults : Faults) (s : State Bytes) :
    State Bytes × Response Bytes → Prop
  | same (response : Response Bytes) : Handled c owner faults s (s, response)
  | persisted {written : State Bytes} {mutation : Db Bytes → Db Bytes} {done : Response Bytes}
      (failed : String) (stored : Changes c owner s written)
      (kept : s.db.dataDir = true → written.db = s.db)
      (mode : written.db.dataDir = s.db.dataDir)
      (changes : Changes c owner written { written with db := mutation written.db })
      (well : done.isStorageError = false) :
      Handled c owner faults s (written.mutatePersisted faults mutation done failed)

theorem mutatePersisted_cases (faults : Faults) (s : State Bytes) (mutation : Db Bytes → Db Bytes)
    (done : Response Bytes) (failed : String) :
    (s.mutatePersisted faults mutation done failed = ({ s with db := mutation s.db }, done) ∧
        (s.db.dataDir = true → faults.persist = none)) ∨
      ((s.mutatePersisted faults mutation done failed).1 = s ∧ s.db.dataDir = true) := by
  unfold State.mutatePersisted Db.mutatePersisted
  cases s.db.dataDir with
  | false => exact Or.inl ⟨rfl, nofun⟩
  | true =>
    cases faults.persist with
    | none => exact Or.inl ⟨rfl, fun _ => rfl⟩
    | some error => exact Or.inr ⟨rfl, rfl⟩

theorem mutatePersisted_done (faults : Faults) (s : State Bytes) (mutation : Db Bytes → Db Bytes)
    (done : Response Bytes) (failed : String) (h : s.db.dataDir = true → faults.persist = none) :
    s.mutatePersisted faults mutation done failed = ({ s with db := mutation s.db }, done) := by
  unfold State.mutatePersisted Db.mutatePersisted
  cases hdir : s.db.dataDir with
  | false => rfl
  | true =>
    rw [h hdir]
    rfl

theorem Handled.changes {result : State Bytes × Response Bytes}
    (h : Handled c owner faults s result) : Changes c owner s result.1 := by
  cases h with
  | same response => exact .refl
  | persisted failed stored kept mode changes well =>
    rename_i written mutation done
    rcases mutatePersisted_cases faults written mutation done failed with ⟨heq, -⟩ | ⟨heq, -⟩
    · rw [heq]
      exact stored.trans changes
    · rw [heq]
      exact stored

/-- A request that failed to persist, or that answers a storage error, leaves the database. -/
theorem Handled.undone {result : State Bytes × Response Bytes}
    (h : Handled c owner faults s result)
    (hfailed : result.2.isStorageError = true ∨ (s.db.dataDir = true ∧ faults.persist ≠ none)) :
    result.1.db = s.db := by
  cases h with
  | same response => rfl
  | persisted failed stored kept mode changes well =>
    rename_i written mutation done
    rcases mutatePersisted_cases faults written mutation done failed with ⟨heq, hnone⟩ | ⟨heq, hdir⟩
    · rw [heq] at hfailed
      rcases hfailed with herror | ⟨hdir, hfault⟩
      · rw [well] at herror
        cases herror
      · exact absurd (hnone (mode.trans hdir)) hfault
    · rw [heq]
      exact kept (mode.symm.trans hdir)

/-- A change of the state as it is. -/
theorem Handled.change {mutation : Db Bytes → Db Bytes} {done : Response Bytes} (failed : String)
    (changes : Changes c owner s { s with db := mutation s.db })
    (well : done.isStorageError = false) :
    Handled c owner faults s (s.mutatePersisted faults mutation done failed) :=
  .persisted failed .refl (fun _ => rfl) rfl changes well

theorem modify_found {handle : String} {project : StoredProject}
    (found : projectFor s.db owner handle = some project) (change : StoredProject → StoredProject) :
    { s with db := s.db.modify owner handle change } =
      s.withProject owner handle (change project) := by
  simp only [Db.modify, found, State.withProject]

theorem putProjectProfile_handled (handle : String) (profile : ProjectProfile) :
    Handled c owner faults s (putProjectProfile faults owner handle profile s) :=
  .change _ (.single (.profile handle profile)) rfl

theorem postHead_cases (faults : Faults) (owner : Principal) (s : State Bytes) (handle : String)
    (fromHead : Option String) (toHead : String) :
    (∃ response, postHead faults owner handle fromHead toHead s = (s, response)) ∨
      ∃ project updatedAt, projectFor s.db owner handle = some project ∧
        project.head = fromHead ∧ toHead ∈ project.commits ∧
          postHead faults owner handle fromHead toHead s = s.mutatePersisted faults
            (fun db => db.modify owner handle fun project =>
              { project with head := some toHead, updatedAt := updatedAt })
            .advanced "persist project head: " := by
  unfold postHead
  rcases found : projectFor s.db owner handle with _ | project
  · exact Or.inl ⟨_, rfl⟩
  simp only
  by_cases hhead : project.head ≠ fromHead
  · rw [if_pos hhead]
    exact Or.inl ⟨_, rfl⟩
  rw [if_neg hhead]
  by_cases hcommitted : toHead ∉ project.commits
  · rw [if_pos hcommitted]
    exact Or.inl ⟨_, rfl⟩
  rw [if_neg hcommitted]
  exact Or.inr ⟨project, _, rfl, not_not.mp hhead, not_not.mp hcommitted, rfl⟩

theorem postHead_handled (handle : String) (fromHead : Option String) (toHead : String) :
    Handled c owner faults s (postHead faults owner handle fromHead toHead s) := by
  rcases postHead_cases faults owner s handle fromHead toHead with
    ⟨response, heq⟩ | ⟨project, updatedAt, found, _, hcommitted, heq⟩
  · rw [heq]
    exact .same _
  · rw [heq]
    apply Handled.change _ ?_ rfl
    rw [modify_found found]
    exact .single (.head _ found hcommitted)

theorem postRetention_cases (faults : Faults) (owner : Principal) (s : State Bytes)
    (handle : String) (rule : RetentionRule) :
    (∃ response, postRetention faults owner handle rule s = (s, response)) ∨
      ∃ project history newFloor report, projectFor s.db owner handle = some project ∧
        visibleHistory s.db.commits project (project.commits.length + 1) project.head [] =
          some history ∧ newFloor ∈ history.map Prod.fst ∧
          postRetention faults owner handle rule s = s.mutatePersisted faults
            (fun db => db.modify owner handle fun project =>
              { project with historyFloor := some newFloor })
            (.retention report) "persist retention boundary: " := by
  unfold postRetention
  rcases found : projectFor s.db owner handle with _ | project
  · exact Or.inl ⟨_, rfl⟩
  simp only
  rcases hhistory : visibleHistory s.db.commits project (project.commits.length + 1) project.head
    [] with _ | history
  · exact Or.inl ⟨_, rfl⟩
  simp only
  generalize hlen : rule.retainedPrefixLen (history.map Prod.snd) = retainedLen
  by_cases hzero : retainedLen = 0
  · rw [if_pos hzero]
    exact Or.inl ⟨_, rfl⟩
  rw [if_neg hzero]
  rcases hlast : history[retainedLen - 1]? with _ | ⟨newFloor, timestamp⟩
  · exact Or.inl ⟨_, rfl⟩
  · exact Or.inr ⟨project, history, newFloor, _, rfl, hhistory,
      List.mem_map_of_mem (List.mem_of_getElem? hlast), rfl⟩

theorem postRetention_handled (handle : String) (rule : RetentionRule) :
    Handled c owner faults s (postRetention faults owner handle rule s) := by
  rcases postRetention_cases faults owner s handle rule with
    ⟨response, heq⟩ | ⟨project, history, newFloor, report, found, _, _, heq⟩
  · rw [heq]
    exact .same _
  · rw [heq]
    apply Handled.change _ ?_ rfl
    rw [modify_found found]
    exact .single (.floor _ found)

theorem writeBlob_cases {hash : String} {bytes : Bytes} {written : State Bytes}
    (h : s.writeBlob faults hash bytes = .ok written) :
    (written = s ∧ (s.blob? hash).isSome) ∨ written = s.withBlob hash bytes := by
  unfold State.writeBlob at h
  cases hdir : s.db.dataDir with
  | false =>
    simp only [hdir, if_true, Except.ok.injEq] at h
    exact Or.inr (by simp [State.withBlob, hdir, ← h])
  | true =>
    simp only [hdir, Bool.true_eq_false, if_false] at h
    by_cases hthere : (get? s.files hash).isSome ∧ faults.hidden hash = false
    · rw [if_pos hthere, Except.ok.injEq] at h
      exact Or.inl ⟨h.symm, by simp [State.blob?, hdir, hthere.1]⟩
    · rw [if_neg hthere] at h
      cases hfault : faults.writeBlob with
      | some error => simp [hfault] at h
      | none =>
        simp only [hfault, Except.ok.injEq] at h
        exact Or.inr (by simp [State.withBlob, hdir, ← h])

variable [DecidableEq Hash]

theorem putBlob_cases (c : Config Bytes Hash) (faults : Faults) (owner : Principal)
    (s : State Bytes) (handle hash : String) (body : Bytes) :
    (∃ response, response.accepted = false ∧
        putBlob c.F c.parseHash faults owner handle hash body s = (s, response)) ∨
      ∃ project written, projectFor s.db owner handle = some project ∧
        c.parseHash hash = .ok (c.F.contentHash body) ∧
          ((written = s ∧ (s.blob? hash).isSome) ∨ written = s.withBlob hash body) ∧
            putBlob c.F c.parseHash faults owner handle hash body s = written.mutatePersisted faults
              (fun db => db.modify owner handle fun project =>
                { project with blobs := insertKey hash project.blobs })
              .ok "persist project blob reference: " := by
  unfold putBlob
  rcases hparsed : c.parseHash hash with error | parsed
  · exact Or.inl ⟨_, rfl, rfl⟩
  simp only
  by_cases hhash : c.F.contentHash body ≠ parsed
  · rw [if_pos hhash]
    exact Or.inl ⟨_, rfl, rfl⟩
  rw [if_neg hhash]
  rcases found : projectFor s.db owner handle with _ | project
  · exact Or.inl ⟨_, rfl, rfl⟩
  simp only
  rcases hwrite : s.writeBlob faults hash body with error | written
  · exact Or.inl ⟨_, rfl, rfl⟩
  · exact Or.inr ⟨project, written, rfl, by rw [not_not.mp hhash], writeBlob_cases hwrite, rfl⟩

theorem putBlob_handled (handle hash : String) (body : Bytes) :
    Handled c owner faults s (putBlob c.F c.parseHash faults owner handle hash body s) := by
  rcases putBlob_cases c faults owner s handle hash body with
    ⟨response, -, heq⟩ | ⟨project, written, found, hparsed, hwritten, heq⟩
  · rw [heq]
    exact .same _
  rw [heq]
  have hstored : Changes c owner s written ∧ (written.blob? hash).isSome ∧
      written.db.projects = s.db.projects ∧ written.db.dataDir = s.db.dataDir ∧
      (s.db.dataDir = true → written.db = s.db) := by
    rcases hwritten with ⟨rfl, hthere⟩ | rfl
    · exact ⟨.refl, hthere, rfl, rfl, fun _ => rfl⟩
    · refine ⟨.single (.blob hparsed), ?_, withBlob_projects _ _ _, withBlob_dataDir _ _ _, ?_⟩
      · rw [blob?_withBlob, if_pos rfl]
        rfl
      · intro hdir
        simp [State.withBlob, hdir]
  obtain ⟨hchanges, hthere, hprojects, hdir, hkept⟩ := hstored
  have hfound : projectFor written.db owner handle = some project := by
    rw [projectFor, hprojects]
    exact found
  refine .persisted _ hchanges hkept hdir ?_ rfl
  rw [modify_found hfound]
  exact .single (.listBlob hfound hthere)

theorem readBlob_some {hash : String} {bytes : Bytes}
    (h : s.readBlob faults hash = .ok (some bytes)) : s.blob? hash = some bytes := by
  unfold State.readBlob at h
  unfold State.blob?
  cases hdir : s.db.dataDir with
  | false => simpa [hdir] using h
  | true =>
    cases hfault : faults.readBlob hash with
    | some error => simp [hdir, hfault] at h
    | none => simpa [hdir, hfault] using h

theorem authorMatches_user {author : AuthorIdentity} {authenticated : AuthenticatedIdentity}
    (h : authorMatches author authenticated = true) :
    author.providerUserId = authenticated.userId := by
  simp only [authorMatches, Bool.and_eq_true, decide_eq_true_eq] at h
  exact h.1.1.2

theorem postCommit_cases (faults : Faults) (s : State Bytes)
    {authenticated : AuthenticatedIdentity} (huser : authenticated.userId = owner.subject)
    (handle : String) (commit : WireCommit Hash) :
    (∃ response, response.accepted = false ∧
      postCommit c.F c.jcs c.parseHash faults owner authenticated handle commit.1 s =
        (s, response)) ∨
      ∃ project, projectFor s.db owner handle = some project ∧
        Accepted c owner s project commit.1 ∧
          postCommit c.F c.jcs c.parseHash faults owner authenticated handle commit.1 s =
            s.mutatePersisted faults
              (fun db =>
                let id := c.F.hashText commit.1.id
                { db with
                  commits := SortedAssoc.insert id (canonicalValue c.F commit.1) db.commits }.modify
                  owner handle fun project =>
                    { project with commits := insertKey id project.commits })
              (.posted (c.F.hashText commit.1.id)) "persist commit: " := by
  obtain ⟨commit, typed⟩ := commit
  unfold postCommit
  rcases hid : FilesystemProvider.computeCommitId (formats c.F c.jcs c.parseHash) commit with
    error | computed
  · exact Or.inl ⟨_, rfl, rfl⟩
  simp only
  by_cases hcomputed : commit.id ≠ computed
  · rw [if_pos hcomputed]
    exact Or.inl ⟨_, rfl, rfl⟩
  rw [if_neg hcomputed]
  by_cases hauthor : authorMatches commit.author authenticated = false
  · rw [if_pos hauthor]
    exact Or.inl ⟨_, rfl, rfl⟩
  rw [if_neg hauthor]
  rcases found : projectFor s.db owner handle with _ | project
  · exact Or.inl ⟨_, rfl, rfl⟩
  simp only
  by_cases hparents : (commit.parents.any fun parent => c.F.hashText parent ∉ project.commits) = true
  · rw [if_pos hparents]
    exact Or.inl ⟨_, rfl, rfl⟩
  rw [if_neg hparents]
  by_cases hblobs : ((requiredBlobs c.F commit).any fun hash => hash ∉ project.blobs) = true
  · rw [if_pos hblobs]
    exact Or.inl ⟨_, rfl, rfl⟩
  rw [if_neg hblobs]
  rcases hread : s.readBlob faults (c.F.hashText commit.tree.samples) with error | _ | bytes
  · exact Or.inl ⟨_, rfl, rfl⟩
  · exact Or.inl ⟨_, rfl, rfl⟩
  simp only
  rcases hmanifest : c.F.decodeManifest bytes with error | manifest
  · exact Or.inl ⟨_, rfl, rfl⟩
  simp only
  by_cases hentries :
      (manifest.entries.any fun entry => c.F.hashText entry.hash ∉ project.blobs) = true
  · rw [if_pos hentries]
    exact Or.inl ⟨_, rfl, rfl⟩
  rw [if_neg hentries]
  have accepted : Accepted c owner s project commit := by
    refine ⟨typed, ?_, ?_, ?_, ?_, bytes, manifest, readBlob_some hread, hmanifest, ?_⟩
    · rw [hid, not_not.mp hcomputed]
    · exact (authorMatches_user (Bool.eq_true_of_not_eq_false hauthor)).trans huser
    · simpa using hparents
    · simpa using hblobs
    · simpa using hentries
  exact Or.inr ⟨project, rfl, accepted, rfl⟩

theorem postCommit_handled {authenticated : AuthenticatedIdentity}
    (huser : authenticated.userId = owner.subject) (handle : String) (commit : WireCommit Hash) :
    Handled c owner faults s
      (postCommit c.F c.jcs c.parseHash faults owner authenticated handle commit.1 s) := by
  rcases postCommit_cases faults s huser handle commit with
    ⟨response, -, heq⟩ | ⟨project, found, accepted, heq⟩
  · rw [heq]
    exact .same _
  · rw [heq]
    apply Handled.change _ ?_ rfl
    have hmodified := modify_found (s := s.withCommit (c.F.hashText commit.1.id)
      (canonicalValue c.F commit.1)) found fun project =>
        { project with commits := insertKey (c.F.hashText commit.1.id) project.commits }
    exact hmodified ▸ .single (.commit found accepted)

omit [DecidableEq Hash] in
theorem requireAuth_ok {auth : AuthState} {token : Option (Except AuthError Value)}
    {identity : TokenIdentity} {authenticated : AuthenticatedIdentity}
    (h : @requireAuth Bytes auth token = .ok (identity, authenticated)) :
    identity.issuer = auth.issuer ∧ authenticated.userId = identity.subject := by
  obtain ⟨verified, hverified, heq⟩ := map_ok_iff.mp h
  obtain ⟨rfl, rfl⟩ := Prod.mk.inj heq
  refine ⟨?_, rfl⟩
  unfold AuthState.issuer
  cases hmode : auth.mode with
  | none =>
    simp only [hmode, Except.ok.injEq] at hverified
    rw [← hverified]
  | oauth policy =>
    simp only [hmode] at hverified
    rcases token with _ | claims
    · cases hverified
    simp only at hverified
    rcases hclaims : claims.bind policy.identityFromClaims with error | found
    · rw [hclaims] at hverified
      cases error <;> cases hverified
    rw [hclaims, Except.ok.injEq] at hverified
    obtain rfl := hverified
    rcases claims with error | claims
    · cases hclaims
    change policy.identityFromClaims claims = .ok found at hclaims
    unfold TokenValidationPolicy.identityFromClaims at hclaims
    rcases hsub : claimString claims "sub" with _ | subject
    · rw [hsub] at hclaims
      cases hclaims
    rw [hsub] at hclaims
    simp only at hclaims
    split at hclaims
    · cases hclaims
    · cases hclaims
      rfl

/-- Whatever a request does is done by its principal. -/
theorem answer_handled {identity : TokenIdentity} {authenticated : AuthenticatedIdentity}
    (huser : authenticated.userId = identity.subject) (call : Call Bytes Hash) :
    Handled c identity.principal faults s (answer c identity authenticated faults s call) := by
  cases call with
  | putProjectProfile handle profile => exact putProjectProfile_handled handle profile
  | postHead handle fromHead toHead => exact postHead_handled handle fromHead toHead
  | postCommit handle commit => exact postCommit_handled huser handle commit
  | postRetention handle rule => exact postRetention_handled handle rule
  | putBlob handle hash body => exact putBlob_handled handle hash body
  | health => exact .same _
  | me => exact .same _
  | projects => exact .same _
  | getHead handle => exact .same _
  | getCommit handle id => exact .same _
  | getHistory handle limit before => exact .same _
  | postBlobsHas handle hashes => exact .same _
  | getBlob handle hash => exact .same _

theorem handle_eq (s : State Bytes) (request : Request Bytes Hash) :
    ((handle c s request).1 = s) ∨
      ∃ identity authenticated,
        @requireAuth Bytes c.auth request.token = .ok (identity, authenticated) ∧
          handle c s request = answer c identity authenticated request.faults s request.call := by
  unfold handle
  rcases hauth : @requireAuth Bytes c.auth request.token with response | ⟨identity, authenticated⟩
  · cases request.call <;> exact Or.inl rfl
  · cases hcall : request.call with
    | health => exact Or.inl rfl
    | _ => exact Or.inr ⟨identity, authenticated, rfl, rfl⟩

/-! Closed states. -/

/-- A commit that the project lists is stored, and was accepted for the project. -/
def Recorded (c : Config Bytes Hash) (owner : Principal) (s : State Bytes) (project : StoredProject)
    (id : String) : Prop :=
  ∃ commit, Accepted c owner s project commit ∧ c.F.hashText commit.id = id ∧
    get? s.db.commits id = some (canonicalValue c.F commit)

structure ProjectClosed (c : Config Bytes Hash) (owner : Principal) (s : State Bytes)
    (project : StoredProject) : Prop where
  head : ∀ id, project.head = some id → id ∈ project.commits
  commits : ∀ id ∈ project.commits, Recorded c owner s project id
  blobs : ∀ hash ∈ project.blobs, (s.blob? hash).isSome

structure Closed (c : Config Bytes Hash) (s : State Bytes) : Prop where
  sorted : Sorted s.db.projects
  stored : ∀ hash bytes, s.blob? hash = some bytes →
    c.parseHash hash = .ok (c.F.contentHash bytes)
  projects : ∀ e ∈ s.db.projects, ∃ owner handle,
    owner.issuer = c.auth.issuer ∧ e.1 = projectKey owner handle ∧ e.2.owner = some owner ∧
      e.2.handle = some handle ∧ ProjectClosed c owner s e.2

omit [DecidableEq Hash] in
theorem closed_empty (c : Config Bytes Hash) (dataDir : Bool) :
    Closed c (State.empty dataDir : State Bytes) := by
  refine ⟨List.Pairwise.nil, ?_, fun e he => absurd he List.not_mem_nil⟩
  intro hash bytes h
  cases dataDir <;> cases h

omit [DecidableEq Hash] in
theorem Closed.found (h : Closed c s) {handle : String} {project : StoredProject}
    (found : projectFor s.db owner handle = some project) :
    owner.issuer = c.auth.issuer ∧ project.owner = some owner ∧ project.handle = some handle ∧
      ProjectClosed c owner s project := by
  obtain ⟨owner', handle', hissuer, hkey, howner, hhandle, hclosed⟩ :=
    h.projects _ (mem_of_get? found)
  obtain ⟨rfl, rfl⟩ := projectKey_inj hkey
  exact ⟨hissuer, howner, hhandle, hclosed⟩

/-! A project stays closed when the state and its own lists grow. -/

omit [DecidableEq Hash] in
theorem Accepted.mono {project project' : StoredProject} {commit : Commit Hash}
    (h : Accepted c owner s project commit)
    (hblobs : ∀ hash bytes, s.blob? hash = some bytes → s'.blob? hash = some bytes)
    (hcommits : project.commits ⊆ project'.commits) (hlisted : project.blobs ⊆ project'.blobs) :
    Accepted c owner s' project' commit := by
  obtain ⟨bytes, manifest, hbytes, hmanifest, hentries⟩ := h.manifest
  exact ⟨h.typed, h.id, h.author, fun parent hp => hcommits (h.parents parent hp),
    fun hash hh => hlisted (h.blobs hash hh), bytes, manifest, hblobs _ _ hbytes, hmanifest,
    fun entry he => hlisted (hentries entry he)⟩

omit [DecidableEq Hash] in
theorem ProjectClosed.mono {project project' : StoredProject}
    (h : ProjectClosed c owner s project)
    (hblobs : ∀ hash bytes, s.blob? hash = some bytes → s'.blob? hash = some bytes)
    (hcommits : ∀ id ∈ project.commits, get? s'.db.commits id = get? s.db.commits id)
    (hhead : ∀ id, project'.head = some id → id ∈ project.commits)
    (hsame : project'.commits = project.commits) (hlisted : project.blobs ⊆ project'.blobs)
    (hthere : ∀ hash ∈ project'.blobs, (s'.blob? hash).isSome) :
    ProjectClosed c owner s' project' := by
  refine ⟨?_, ?_, hthere⟩
  · intro id hid
    rw [hsame]
    exact hhead id hid
  · intro id hid
    rw [hsame] at hid
    obtain ⟨commit, haccepted, htext, hget⟩ := h.commits id hid
    exact ⟨commit, haccepted.mono hblobs (by rw [hsame]; exact List.Subset.refl _) hlisted, htext,
      (hcommits id hid).trans hget⟩

omit [DecidableEq Hash] in
theorem ProjectClosed.isSome_mono {project : StoredProject} (h : ProjectClosed c owner s project)
    (hblobs : ∀ hash bytes, s.blob? hash = some bytes → s'.blob? hash = some bytes) :
    ∀ hash ∈ project.blobs, (s'.blob? hash).isSome := by
  intro hash hmem
  obtain ⟨bytes, hbytes⟩ := Option.isSome_iff_exists.mp (h.blobs hash hmem)
  rw [hblobs hash bytes hbytes]
  rfl

omit [DecidableEq Hash] in
/-- Writing a project leaves the others as they are. -/
theorem Closed.withProject (h : Closed c s) (hissuer : owner.issuer = c.auth.issuer)
    {handle : String} {project : StoredProject} (howner : project.owner = some owner)
    (hhandle : project.handle = some handle) (hclosed : ProjectClosed c owner s project) :
    Closed c (s.withProject owner handle project) := by
  have hkeep : ∀ {o : Principal} {p : StoredProject}, ProjectClosed c o s p →
      ProjectClosed c o (s.withProject owner handle project) p := fun hp =>
    hp.mono (fun _ _ hb => hb) (fun _ _ => rfl) hp.head rfl (List.Subset.refl _) hp.blobs
  refine ⟨sorted_insert h.sorted _ _, h.stored, fun e he => ?_⟩
  rcases mem_insert he with rfl | he
  · exact ⟨owner, handle, hissuer, rfl, howner, hhandle, hkeep hclosed⟩
  · obtain ⟨owner', handle', hissuer', hkey, howner', hhandle', hclosed'⟩ := h.projects e he
    exact ⟨owner', handle', hissuer', hkey, howner', hhandle', hkeep hclosed'⟩

omit [DecidableEq Hash] in
/-- A name has one content. -/
theorem Closed.blob?_withBlob (hinjective : Function.Injective c.F.contentHash) (h : Closed c s)
    {hash hash' : String} {bytes bytes' : Bytes}
    (parsed : c.parseHash hash = .ok (c.F.contentHash bytes)) (hbytes : s.blob? hash' = some bytes') :
    (s.withBlob hash bytes).blob? hash' = some bytes' := by
  rw [Server.blob?_withBlob]
  split
  · rename_i heq
    have hold := h.stored hash' bytes' hbytes
    rw [heq, parsed, Except.ok.injEq] at hold
    rw [hinjective hold]
  · exact hbytes

omit [DecidableEq Hash] in
theorem Closed.withBlob (hinjective : Function.Injective c.F.contentHash) (h : Closed c s)
    {hash : String} {bytes : Bytes} (parsed : c.parseHash hash = .ok (c.F.contentHash bytes)) :
    Closed c (s.withBlob hash bytes) := by
  have hblobs : ∀ hash' bytes', s.blob? hash' = some bytes' →
      (s.withBlob hash bytes).blob? hash' = some bytes' :=
    fun _ _ hbytes => h.blob?_withBlob hinjective parsed hbytes
  refine ⟨by rw [withBlob_projects]; exact h.sorted, ?_, ?_⟩
  · intro hash' bytes' hbytes
    rw [Server.blob?_withBlob] at hbytes
    split at hbytes
    · rename_i heq
      rw [heq, parsed, Option.some.inj hbytes]
    · exact h.stored hash' bytes' hbytes
  · intro e he
    rw [withBlob_projects] at he
    obtain ⟨owner', handle', hissuer, hkey, howner, hhandle, hclosed⟩ := h.projects e he
    exact ⟨owner', handle', hissuer, hkey, howner, hhandle,
      hclosed.mono hblobs (fun _ _ => by rw [withBlob_commits]) hclosed.head rfl
        (List.Subset.refl _) (hclosed.isSome_mono hblobs)⟩

section Lawful
variable (hC : CanonicalJson c.F c.jcs fun text => (c.parseHash text).toOption)

include hC

omit [DecidableEq Hash] in
theorem hashText_inj {hash hash' : Hash} (h : c.F.hashText hash = c.F.hashText hash') :
    hash = hash' := by
  have hsame := hC.parse_hash hash
  rw [h, hC.parse_hash hash'] at hsame
  exact (Option.some.inj hsame).symm

omit [DecidableEq Hash] in
/-- Another commit under the id of an accepted one is accepted as well. -/
theorem Accepted.same {project : StoredProject} {old commit : Commit Hash}
    (h : Accepted c owner s project old) (typed : commit.Typed)
    (hid : FilesystemProvider.computeCommitId (formats c.F c.jcs c.parseHash) commit =
      .ok commit.id) (heq : old.id = commit.id) : Accepted c owner s project commit := by
  have hold := h.id
  rw [heq] at hold
  obtain ⟨bytes, manifest, hmanifest⟩ := h.manifest
  have hsame := hC.eq_of_computeCommitId_eq h.typed typed hold hid
  have hparents : old.parents = commit.parents := (congrArg Commit.parents hsame :)
  have htree : old.tree = commit.tree := (congrArg Commit.tree hsame :)
  have hauthor : old.author = commit.author := (congrArg Commit.author hsame :)
  have hmetadata : old.metadata = commit.metadata := (congrArg Commit.metadata hsame :)
  refine ⟨typed, hid, hauthor ▸ h.author, hparents ▸ h.parents, ?_, bytes, manifest,
    htree ▸ hmanifest⟩
  have hblobs := h.blobs
  rwa [requiredBlobs, htree, hmetadata] at hblobs

omit [DecidableEq Hash] in
theorem Recorded.withCommit {project : StoredProject} {id : String} {commit : Commit Hash}
    (h : Recorded c owner s project id) (typed : commit.Typed)
    (hid : FilesystemProvider.computeCommitId (formats c.F c.jcs c.parseHash) commit =
      .ok commit.id) :
    Recorded c owner (s.withCommit (c.F.hashText commit.id) (canonicalValue c.F commit)) project
      id := by
  obtain ⟨old, haccepted, htext, hget⟩ := h
  have hkeep : ∀ {d : Commit Hash}, Accepted c owner s project d → Accepted c owner
      (s.withCommit (c.F.hashText commit.id) (canonicalValue c.F commit)) project d := fun hd =>
    hd.mono (fun _ _ hb => hb) (List.Subset.refl _) (List.Subset.refl _)
  by_cases heq : id = c.F.hashText commit.id
  · have hsame : old.id = commit.id := hashText_inj hC (htext.trans heq)
    refine ⟨commit, hkeep (haccepted.same hC typed hid hsame), heq.symm, ?_⟩
    rw [State.withCommit, get?_insert, if_pos heq]
  · refine ⟨old, hkeep haccepted, htext, ?_⟩
    rw [State.withCommit, get?_insert, if_neg heq, hget]

omit [DecidableEq Hash] in
theorem Closed.withCommit (h : Closed c s) {commit : Commit Hash} (typed : commit.Typed)
    (hid : FilesystemProvider.computeCommitId (formats c.F c.jcs c.parseHash) commit =
      .ok commit.id) :
    Closed c (s.withCommit (c.F.hashText commit.id) (canonicalValue c.F commit)) := by
  refine ⟨h.sorted, h.stored, fun e he => ?_⟩
  obtain ⟨owner', handle', hissuer, hkey, howner, hhandle, hclosed⟩ := h.projects e he
  exact ⟨owner', handle', hissuer, hkey, howner, hhandle, hclosed.head,
    fun id hmem => (hclosed.commits id hmem).withCommit hC typed hid, hclosed.blobs⟩

omit [DecidableEq Hash] in
theorem Closed.change (hissuer : owner.issuer = c.auth.issuer) (h : Closed c s)
    (hs : Change c owner s s') : Closed c s' := by
  cases hs with
  | blob parsed => exact h.withBlob hC.hash_injective parsed
  | profile handle profile =>
    cases found : projectFor s.db owner handle with
    | none =>
      exact h.withProject hissuer rfl rfl ⟨nofun, nofun, nofun⟩
    | some project =>
      obtain ⟨-, howner, hhandle, hclosed⟩ := h.found found
      exact h.withProject hissuer howner hhandle <| hclosed.mono (fun _ _ hb => hb)
        (fun _ _ => rfl) hclosed.head rfl (List.Subset.refl _) hclosed.blobs
  | head updatedAt found committed =>
    obtain ⟨-, howner, hhandle, hclosed⟩ := h.found found
    refine h.withProject hissuer howner hhandle <| hclosed.mono (fun _ _ hb => hb)
      (fun _ _ => rfl) ?_ rfl (List.Subset.refl _) hclosed.blobs
    intro id hid
    rwa [← Option.some.inj hid]
  | floor floor found =>
    obtain ⟨-, howner, hhandle, hclosed⟩ := h.found found
    exact h.withProject hissuer howner hhandle <| hclosed.mono (fun _ _ hb => hb)
      (fun _ _ => rfl) hclosed.head rfl (List.Subset.refl _) hclosed.blobs
  | listBlob found stored =>
    obtain ⟨-, howner, hhandle, hclosed⟩ := h.found found
    refine h.withProject hissuer howner hhandle <| hclosed.mono (fun _ _ hb => hb)
      (fun _ _ => rfl) hclosed.head rfl (fun _ hmem => mem_insertKey.mpr (Or.inr hmem)) ?_
    intro hash hmem
    rcases mem_insertKey.mp hmem with rfl | hmem
    · exact stored
    · exact hclosed.blobs hash hmem
  | commit found accepted =>
    rename_i project commit
    have hnext := h.withCommit hC accepted.typed accepted.id
    obtain ⟨-, howner, hhandle, hclosed⟩ := hnext.found found
    have hgrow : project.commits ⊆ insertKey (c.F.hashText commit.id) project.commits :=
      fun _ hmem => mem_insertKey.mpr (Or.inr hmem)
    refine hnext.withProject hissuer howner hhandle ⟨fun id hid => hgrow (hclosed.head id hid), ?_,
      hclosed.blobs⟩
    intro id hmem
    rcases mem_insertKey.mp hmem with rfl | hmem
    · refine ⟨commit, accepted.mono (fun _ _ hb => hb) hgrow (List.Subset.refl _), rfl, ?_⟩
      rw [State.withCommit, get?_insert, if_pos rfl]
    · obtain ⟨d, haccepted, htext, hget⟩ := hclosed.commits id hmem
      exact ⟨d, haccepted.mono (fun _ _ hb => hb) hgrow (List.Subset.refl _), htext, hget⟩

omit [DecidableEq Hash] in
theorem Closed.changes (hissuer : owner.issuer = c.auth.issuer) (h : Closed c s)
    (hs : Changes c owner s s') : Closed c s' := by
  induction hs with
  | refl => exact h
  | tail _ hlast ih => exact ih.change hC hissuer hlast

theorem Closed.handle (h : Closed c s) (request : Request Bytes Hash) :
    Closed c (handle c s request).1 := by
  rcases handle_eq (c := c) s request with hsame | ⟨identity, authenticated, hauth, hanswer⟩
  · rw [hsame]
    exact h
  · obtain ⟨hissuer, huser⟩ := requireAuth_ok hauth
    rw [hanswer]
    exact h.changes hC hissuer (answer_handled huser request.call).changes

theorem Closed.run (h : Closed c s) (requests : List (Request Bytes Hash)) :
    Closed c (run c s requests) := by
  induction requests generalizing s with
  | nil => exact h
  | cons request requests ih => exact ih (h.handle hC request)

end Lawful

theorem handle_undone (s : State Bytes) (request : Request Bytes Hash)
    (hfailed : (handle c s request).2.isStorageError = true ∨
      (s.db.dataDir = true ∧ request.faults.persist ≠ none)) :
    (handle c s request).1.db = s.db := by
  rcases handle_eq (c := c) s request with hsame | ⟨identity, authenticated, hauth, hanswer⟩
  · rw [hsame]
  · rw [hanswer] at hfailed ⊢
    exact (answer_handled (requireAuth_ok hauth).2 request.call).undone hfailed

omit [DecidableEq Hash] in
theorem Changes.dataDir (h : Changes c owner s s') : s'.db.dataDir = s.db.dataDir := by
  induction h with
  | refl => rfl
  | tail _ hlast ih =>
    rw [← ih]
    cases hlast with
    | blob parsed => exact withBlob_dataDir _ _ _
    | _ => rfl

theorem run_dataDir (s : State Bytes) (requests : List (Request Bytes Hash)) :
    (run c s requests).db.dataDir = s.db.dataDir := by
  induction requests generalizing s with
  | nil => rfl
  | cons request requests ih =>
    apply (ih _).trans
    change (handle c s request).1.db.dataDir = s.db.dataDir
    rcases handle_eq (c := c) s request with hsame | ⟨identity, authenticated, hauth, hanswer⟩
    · rw [hsame]
    · rw [hanswer]
      exact (answer_handled (requireAuth_ok hauth).2 request.call).changes.dataDir

/-- A commit of a project is stored, with its parents and with all blobs that it keeps alive. -/
def CommitKept (c : Config Bytes Hash) (s : State Bytes) (project : StoredProject) (id : String) :
    Prop :=
  ∃ (commit : Commit Hash) (bytes : Bytes) (manifest : SampleManifest Hash),
    get? s.db.commits id = some (canonicalValue c.F commit) ∧
    FilesystemProvider.computeCommitId (formats c.F c.jcs c.parseHash) commit = .ok commit.id ∧
    c.F.hashText commit.id = id ∧
    (∀ parent ∈ commit.parents, c.F.hashText parent ∈ project.commits ∧
      (get? s.db.commits (c.F.hashText parent)).isSome) ∧
    s.blob? (c.F.hashText commit.tree.samples) = some bytes ∧
    c.F.decodeManifest bytes = .ok manifest ∧
    ∀ hash ∈ FilesystemProvider.commitBlobs commit manifest, c.F.hashText hash ∈ project.blobs ∧
      ∃ content, s.blob? (c.F.hashText hash) = some content ∧ c.F.contentHash content = hash

omit [DecidableEq Hash] in
theorem Closed.commitKept (hC : CanonicalJson c.F c.jcs fun text => (c.parseHash text).toOption)
    (h : Closed c s) {project : StoredProject} (hclosed : ProjectClosed c owner s project)
    {id : String} (hid : id ∈ project.commits) : CommitKept c s project id := by
  obtain ⟨commit, accepted, htext, hget⟩ := hclosed.commits id hid
  obtain ⟨bytes, manifest, hbytes, hmanifest, hentries⟩ := accepted.manifest
  refine ⟨commit, bytes, manifest, hget, accepted.id, htext, ?_, hbytes, hmanifest, ?_⟩
  · intro parent hparent
    have hlisted := accepted.parents parent hparent
    obtain ⟨_, _, _, hstored⟩ := hclosed.commits _ hlisted
    exact ⟨hlisted, by rw [hstored]; rfl⟩
  · intro hash hmem
    have hlisted : c.F.hashText hash ∈ project.blobs := by
      rcases List.mem_append.mp hmem with hmem | hmem
      · exact accepted.blobs _ (List.mem_map_of_mem hmem)
      · obtain ⟨entry, hentry, rfl⟩ := List.mem_map.mp hmem
        exact hentries entry hentry
    obtain ⟨content, hcontent⟩ := Option.isSome_iff_exists.mp (hclosed.blobs _ hlisted)
    refine ⟨hlisted, content, hcontent, ?_⟩
    have hparsed := hC.parse_hash hash
    rw [h.stored _ _ hcontent] at hparsed
    exact Option.some.inj hparsed

/-- After any requests, the projects are closed, and a request that fails to persist leaves the
database as it was. -/
theorem run_closed (hC : CanonicalJson c.F c.jcs fun text => (c.parseHash text).toOption)
    (dataDir : Bool) (requests : List (Request Bytes Hash)) :
    (∀ key project, get? (run c (State.empty dataDir) requests).db.projects key = some project →
      (∀ id, project.head = some id → id ∈ project.commits) ∧
        ∀ id ∈ project.commits, CommitKept c (run c (State.empty dataDir) requests) project id) ∧
    ∀ request : Request Bytes Hash,
      ((handle c (run c (State.empty dataDir) requests) request).2.isStorageError = true ∨
          (dataDir = true ∧ request.faults.persist ≠ none)) →
        (handle c (run c (State.empty dataDir) requests) request).1.db =
          (run c (State.empty dataDir) requests).db := by
  have hclosed := (closed_empty c dataDir).run hC requests
  refine ⟨?_, ?_⟩
  · intro key project hget
    obtain ⟨_, _, _, _, _, _, hproject⟩ := hclosed.projects _ (mem_of_get? hget)
    exact ⟨hproject.head, fun id hid => hclosed.commitKept hC hproject hid⟩
  · intro request hfailed
    apply handle_undone
    rcases hfailed with herror | ⟨hdir, hfault⟩
    · exact Or.inl herror
    · exact Or.inr ⟨(run_dataDir _ _).trans hdir, hfault⟩

end Steps

/-! A project with one commit. -/

/-- Tokens name a user of one identity provider. -/
def takeConfig : Config String String where
  auth := ⟨"local-folder", .oauth ⟨"https://id.example", "projects", ["name"], "email"⟩⟩
  health := .null
  F := { takeFormats with decodeManifest := fun _ => .ok ⟨[]⟩ }
  jcs := takeJcs
  parseHash := .ok

theorem takeConfig_canonical :
    CanonicalJson takeConfig.F takeConfig.jcs fun text => (takeConfig.parseHash text).toOption :=
  ⟨takeFormats_canonical.hash_injective, takeFormats_canonical.parse_hash,
    takeFormats_canonical.written⟩

def takeClaims : Value :=
  .object [("name", .string "Test User"), ("scope", .string "projects"), ("sub", .string "user-1")]

def asTestUser (call : Call String String) : Request String String := ⟨some (.ok takeClaims), call, {}⟩

def takeRequests : List (Request String String) :=
  [asTestUser (.putProjectProfile "song" ⟨"Song", "ableton", ⟨none, []⟩, none⟩),
    asTestUser (.putBlob "song" "snapshot" "snapshot"),
    asTestUser (.putBlob "song" "samples" "samples"),
    asTestUser (.postCommit "song"
      ⟨firstTake (2 ^ 53), firstTake_typed (2 ^ 53) (by decide) (by decide)⟩),
    asTestUser (.postHead "song" none takeText)]

theorem takeRequests_closed :
    ((run takeConfig (State.empty true) takeRequests).db.projects.map
        fun entry => entry.2.commits) = [[takeText]] ∧
      ∀ key project,
        get? (run takeConfig (State.empty true) takeRequests).db.projects key = some project →
          ∀ id ∈ project.commits,
            CommitKept takeConfig (run takeConfig (State.empty true) takeRequests) project id := by
  constructor
  · decide +kernel
  · intro key project hget
    exact ((run_closed takeConfig_canonical true takeRequests).1 key project hget).2

end Server

end AuruPm
