import AuruPm.Lib.Purge
import AuruPm.ServerState

/-!
# Principals do not see each other

Blobs and commits of all principals lie in the same maps. Two states look alike to a principal
when its own projects are the same, and so is all that they list. What others do leaves a state
that looks as before, and alike states give the principal the same answers.
-/

namespace AuruPm

set_option autoImplicit false

open SortedAssoc

namespace Server

section Isolation
variable {Bytes Hash : Type} {c : Config Bytes Hash} {owner other : Principal}
  {s s' t t' : State Bytes}

/-- What a principal can see of two states is the same. -/
structure Alike (owner : Principal) (s t : State Bytes) : Prop where
  projects : ∀ handle, projectFor s.db owner handle = projectFor t.db owner handle
  commits : ∀ handle project, projectFor s.db owner handle = some project →
    ∀ id ∈ project.commits, get? s.db.commits id = get? t.db.commits id
  blobs : ∀ handle project, projectFor s.db owner handle = some project →
    ∀ hash ∈ project.blobs, s.blob? hash = t.blob? hash

theorem Alike.refl (owner : Principal) (s : State Bytes) : Alike owner s s :=
  ⟨fun _ => rfl, fun _ _ _ _ _ => rfl, fun _ _ _ _ _ => rfl⟩

/-- A change of the left state that the principal does not see. -/
theorem Alike.of_unseen (h : Alike owner s t)
    (hprojects : ∀ handle, projectFor s'.db owner handle = projectFor s.db owner handle)
    (hcommits : ∀ handle project, projectFor s.db owner handle = some project →
      ∀ id ∈ project.commits, get? s'.db.commits id = get? s.db.commits id)
    (hblobs : ∀ handle project, projectFor s.db owner handle = some project →
      ∀ hash ∈ project.blobs, s'.blob? hash = s.blob? hash) : Alike owner s' t := by
  refine ⟨fun handle => (hprojects handle).trans (h.projects handle), ?_, ?_⟩
  · intro handle project found id hid
    rw [hprojects] at found
    exact (hcommits handle project found id hid).trans (h.commits handle project found id hid)
  · intro handle project found hash hhash
    rw [hprojects] at found
    exact (hblobs handle project found hash hhash).trans (h.blobs handle project found hash hhash)

theorem projectFor_withProject (s : State Bytes) (owner other : Principal)
    (handle handle' : String) (project : StoredProject) :
    projectFor (s.withProject other handle' project).db owner handle =
      if owner = other ∧ handle = handle' then some project else projectFor s.db owner handle := by
  unfold projectFor State.withProject
  rw [get?_insert]
  by_cases hkey : projectKey owner handle = projectKey other handle'
  · rw [if_pos hkey, if_pos (projectKey_inj hkey)]
  · rw [if_neg hkey, if_neg]
    rintro ⟨rfl, rfl⟩
    exact hkey rfl

/-! What others do. -/

theorem Alike.otherProject (h : Alike owner s t) (hne : other ≠ owner) (handle : String)
    (project : StoredProject) : Alike owner (s.withProject other handle project) t := by
  apply h.of_unseen
  · intro handle'
    rw [projectFor_withProject, if_neg fun heq => hne heq.1.symm]
  · exact fun _ _ _ _ _ => rfl
  · exact fun _ _ _ _ _ => rfl

variable (hC : CanonicalJson c.F c.jcs fun text => (c.parseHash text).toOption)

include hC

/-- Another principal's change is not seen. -/
theorem Alike.otherChange (hclosed : Closed c s) (hissuer : other.issuer = c.auth.issuer)
    (hne : other ≠ owner) (h : Alike owner s t) (hs : Change c other s s') : Alike owner s' t := by
  cases hs with
  | blob parsed =>
    apply h.of_unseen
    · intro handle
      rw [projectFor, withBlob_projects]
      rfl
    · intro handle project found id hid
      rw [withBlob_commits]
    · intro handle project found hash hhash
      obtain ⟨bytes, hbytes⟩ :=
        Option.isSome_iff_exists.mp ((hclosed.found found).2.2.2.blobs hash hhash)
      rw [hbytes, hclosed.blob?_withBlob hC.hash_injective parsed hbytes]
  | profile handle profile => exact h.otherProject hne _ _
  | head updatedAt found committed => exact h.otherProject hne _ _
  | floor floor found => exact h.otherProject hne _ _
  | listBlob found stored => exact h.otherProject hne _ _
  | commit found accepted =>
    rename_i handle project commit
    have hcommit : Alike owner
        (s.withCommit (c.F.hashText commit.id) (canonicalValue c.F commit)) t := by
      apply h.of_unseen
      · exact fun _ => rfl
      · intro handle' project' found' id hid
        have hproject' := (hclosed.found found').2.2.2
        obtain ⟨old, haccepted, htext, -⟩ := hproject'.commits id hid
        rw [State.withCommit, get?_insert, if_neg]
        intro heq
        have hsame := haccepted.same hC accepted.typed accepted.id (hashText_inj hC (htext.trans heq))
        have hsubject : owner.subject = other.subject := hsame.author.symm.trans accepted.author
        have hissuer' : owner.issuer = other.issuer := (hclosed.found found').1.trans hissuer.symm
        apply hne
        obtain ⟨issuer, subject⟩ := owner
        obtain ⟨issuer', subject'⟩ := other
        simp only at hsubject hissuer'
        rw [hsubject, hissuer']
      · exact fun _ _ _ _ _ => rfl
    exact hcommit.otherProject hne _ _

/-- Neither is anything else that others do. -/
theorem Alike.otherChanges (hclosed : Closed c s) (hissuer : other.issuer = c.auth.issuer)
    (hne : other ≠ owner) (h : Alike owner s t) (hs : Changes c other s s') : Alike owner s' t := by
  induction hs with
  | refl => exact h
  | tail hfirst hlast ih =>
    exact ih.otherChange hC (hclosed.changes hC hissuer hfirst) hissuer hne hlast

omit hC

/-! What the principal does. -/

theorem Alike.withProject (h : Alike owner s t) (handle : String) {project : StoredProject}
    (hcommits : ∀ id ∈ project.commits, get? s.db.commits id = get? t.db.commits id)
    (hblobs : ∀ hash ∈ project.blobs, s.blob? hash = t.blob? hash) :
    Alike owner (s.withProject owner handle project) (t.withProject owner handle project) := by
  refine ⟨?_, ?_, ?_⟩
  · intro handle'
    rw [projectFor_withProject, projectFor_withProject, h.projects]
  · intro handle' project' found
    rw [projectFor_withProject] at found
    split at found
    · obtain rfl := Option.some.inj found
      exact hcommits
    · exact h.commits handle' project' found
  · intro handle' project' found
    rw [projectFor_withProject] at found
    split at found
    · obtain rfl := Option.some.inj found
      exact hblobs
    · exact h.blobs handle' project' found

theorem Alike.withCommit (h : Alike owner s t) (id : String) (value : Value) :
    Alike owner (s.withCommit id value) (t.withCommit id value) := by
  refine ⟨h.projects, ?_, h.blobs⟩
  intro handle project found id' hid
  simp only [State.withCommit, get?_insert, h.commits handle project found id' hid]

/-- States that both store one more blob. -/
theorem Alike.stored (h : Alike owner s t) {hash : String} {bytes : Bytes}
    (hs : ∀ hash', s'.blob? hash' = if hash' = hash then some bytes else s.blob? hash')
    (ht : ∀ hash', t'.blob? hash' = if hash' = hash then some bytes else t.blob? hash')
    (hsdb : s'.db.projects = s.db.projects ∧ s'.db.commits = s.db.commits)
    (htdb : t'.db.projects = t.db.projects ∧ t'.db.commits = t.db.commits) : Alike owner s' t' := by
  refine ⟨?_, ?_, ?_⟩
  · intro handle
    rw [projectFor, projectFor, hsdb.1, htdb.1]
    exact h.projects handle
  · intro handle project found
    rw [projectFor, hsdb.1] at found
    rw [hsdb.2, htdb.2]
    exact h.commits handle project found
  · intro handle project found hash' hmem
    rw [projectFor, hsdb.1] at found
    rw [hs, ht, h.blobs handle project found hash' hmem]

/-- The projects of a principal are listed alike. -/
theorem Alike.ownProjects_eq (hs : Closed c s) (ht : Closed c t) (h : Alike owner s t) :
    ownProjects s.db owner = ownProjects t.db owner := by
  have hown : ∀ m : List (String × StoredProject),
      ((m.map Prod.snd).filter fun project => decide (project.owner = some owner)) =
        (m.filter fun e => decide (e.2.owner = some owner)).map Prod.snd := by
    intro m
    rw [List.filter_map]
    rfl
  have hmem : ∀ {s t : State Bytes}, Closed c s →
      (∀ handle, projectFor s.db owner handle = projectFor t.db owner handle) →
      ∀ e, e ∈ s.db.projects.filter (fun e => decide (e.2.owner = some owner)) →
        e ∈ t.db.projects.filter fun e => decide (e.2.owner = some owner) := by
    intro s t hs hsame e he
    obtain ⟨he, howner⟩ := List.mem_filter.mp he
    obtain ⟨owner', handle, -, hkey, howner', -⟩ := hs.projects e he
    have heq : owner' = owner :=
      Option.some.inj (howner'.symm.trans (of_decide_eq_true howner))
    have hfound : projectFor s.db owner handle = some e.2 := by
      rw [projectFor, ← heq, ← hkey]
      exact get?_of_mem hs.sorted he
    rw [hsame] at hfound
    have hthere := mem_of_get? hfound
    rw [← heq, ← hkey] at hthere
    exact List.mem_filter.mpr ⟨hthere, howner⟩
  rw [ownProjects, ownProjects, hown, hown]
  congr 1
  apply ext_mem (hs.sorted.sublist List.filter_sublist) (ht.sorted.sublist List.filter_sublist)
  intro e
  exact ⟨hmem hs h.projects e, hmem ht (fun handle => (h.projects handle).symm) e⟩

theorem readBlob_quiet (s : State Bytes) (hash : String) :
    s.readBlob {} hash = .ok (s.blob? hash) := by
  unfold State.readBlob State.blob?
  split <;> rfl

theorem hasBlob_quiet (s : State Bytes) (hash : String) :
    s.hasBlob {} hash = (s.blob? hash).isSome := by
  unfold State.hasBlob State.blob?
  split
  · rfl
  · exact Bool.and_true _

/-- A blob that is put is there afterwards, whoever put it first. -/
theorem writeBlob_quiet (hclosed : Closed c s) (hinjective : Function.Injective c.F.contentHash)
    {hash : String} {bytes : Bytes} (parsed : c.parseHash hash = .ok (c.F.contentHash bytes)) :
    ∃ written, s.writeBlob {} hash bytes = .ok written ∧
      (∀ hash', written.blob? hash' = if hash' = hash then some bytes else s.blob? hash') ∧
      written.db.projects = s.db.projects ∧ written.db.commits = s.db.commits := by
  have hwrite : ∃ written, s.writeBlob {} hash bytes = .ok written := by
    unfold State.writeBlob
    split
    · exact ⟨_, rfl⟩
    · split <;> exact ⟨_, rfl⟩
  obtain ⟨written, hwrite⟩ := hwrite
  refine ⟨written, hwrite, ?_⟩
  rcases writeBlob_cases hwrite with ⟨rfl, hthere⟩ | rfl
  · refine ⟨?_, rfl, rfl⟩
    intro hash'
    obtain ⟨old, hold⟩ := Option.isSome_iff_exists.mp hthere
    split
    · rename_i heq
      have hsame := hclosed.stored hash old hold
      rw [parsed, Except.ok.injEq] at hsame
      rw [heq, hold, hinjective hsame]
    · rfl
  · exact ⟨fun _ => blob?_withBlob _ _ _ _, withBlob_projects _ _ _, withBlob_commits _ _ _⟩

/-- The same answer, and states that look alike afterwards. -/
def SameAnswer (owner : Principal) (left right : State Bytes × Response Bytes) : Prop :=
  left.2 = right.2 ∧ Alike owner left.1 right.1

theorem Alike.same (h : Alike owner s t) (response : Response Bytes) :
    SameAnswer owner (s, response) (t, response) := ⟨rfl, h⟩

/-- A change that persists in both states. -/
theorem sameAnswer_persisted {change change' : Db Bytes → Db Bytes} {done : Response Bytes}
    {failed : String}
    (h : Alike owner { s with db := change s.db } { t with db := change' t.db }) :
    SameAnswer owner (s.mutatePersisted {} change done failed)
      (t.mutatePersisted {} change' done failed) := by
  have hquiet : ∀ (s : State Bytes) (change : Db Bytes → Db Bytes),
      s.mutatePersisted {} change done failed = ({ s with db := change s.db }, done) := by
    intro s change
    unfold State.mutatePersisted Db.mutatePersisted
    cases s.db.dataDir <;> rfl
  rw [hquiet, hquiet]
  exact ⟨rfl, h⟩

theorem putProjectProfile_same (h : Alike owner s t) (handle : String) (profile : ProjectProfile) :
    SameAnswer owner (putProjectProfile {} owner handle profile s)
      (putProjectProfile {} owner handle profile t) := by
  apply sameAnswer_persisted
  rw [← h.projects]
  apply h.withProject
  · cases found : projectFor s.db owner handle with
    | none => exact nofun
    | some project => exact h.commits handle project found
  · cases found : projectFor s.db owner handle with
    | none => exact nofun
    | some project => exact h.blobs handle project found

theorem postHead_same (h : Alike owner s t) (handle : String) (fromHead : Option String)
    (toHead : String) :
    SameAnswer owner (postHead {} owner handle fromHead toHead s)
      (postHead {} owner handle fromHead toHead t) := by
  unfold postHead
  have found' := h.projects handle
  rw [← found']
  rcases found : projectFor s.db owner handle with _ | project
  · exact h.same _
  simp only
  by_cases hhead : project.head ≠ fromHead
  · rw [if_pos hhead, if_pos hhead]
    exact h.same _
  rw [if_neg hhead, if_neg hhead]
  by_cases hcommitted : toHead ∉ project.commits
  · rw [if_pos hcommitted, if_pos hcommitted]
    exact h.same _
  rw [if_neg hcommitted, if_neg hcommitted,
    h.commits handle project found toHead (not_not.mp hcommitted)]
  apply sameAnswer_persisted
  rw [modify_found found, modify_found (found'.symm.trans found)]
  exact h.withProject handle (h.commits handle project found) (h.blobs handle project found)

/-! Loops over the history see commits of the project alone. -/

theorem historyLoop_congr {commits commits' : List (String × Value)} {project : StoredProject}
    (h : ∀ id ∈ project.commits, get? commits id = get? commits' id) (limit : Nat)
    (before : Option String) (rounds : Nat) (cursor : Option String) (started : Bool)
    (out : List Value) :
    historyLoop commits project limit before rounds cursor started out =
      historyLoop commits' project limit before rounds cursor started out := by
  induction rounds generalizing cursor started out with
  | zero => cases cursor <;> rfl
  | succ rounds ih =>
    rcases cursor with _ | id
    · rfl
    simp only [historyLoop]
    by_cases hid : id ∉ project.commits
    · rw [if_pos hid, if_pos hid]
    rw [if_neg hid, if_neg hid, h id (not_not.mp hid)]
    rcases get? commits' id with _ | value
    · rfl
    simp only [ih]

theorem visibleHistory_unlisted (commits : List (String × Value)) {project : StoredProject}
    (rounds : Nat) (history : List (String × Int)) {id : String} (hid : id ∉ project.commits) :
    visibleHistory commits project (rounds + 1) (some id) history = some history := by
  rw [visibleHistory]
  rcases get? commits id with _ | value
  · rfl
  · exact if_pos hid

theorem visibleHistory_congr {commits commits' : List (String × Value)} {project : StoredProject}
    (h : ∀ id ∈ project.commits, get? commits id = get? commits' id) (rounds : Nat)
    (cursor : Option String) (history : List (String × Int)) :
    visibleHistory commits project rounds cursor history =
      visibleHistory commits' project rounds cursor history := by
  induction rounds generalizing cursor history with
  | zero => cases cursor <;> rfl
  | succ rounds ih =>
    rcases cursor with _ | id
    · rfl
    by_cases hid : id ∈ project.commits
    · simp only [visibleHistory, h id hid, ih]
    · rw [visibleHistory_unlisted _ _ _ hid, visibleHistory_unlisted _ _ _ hid]

theorem postRetention_same (h : Alike owner s t) (handle : String) (rule : RetentionRule) :
    SameAnswer owner (postRetention {} owner handle rule s)
      (postRetention {} owner handle rule t) := by
  unfold postRetention
  have found' := h.projects handle
  rw [← found']
  rcases found : projectFor s.db owner handle with _ | project
  · exact h.same _
  simp only
  rw [visibleHistory_congr (h.commits handle project found)]
  rcases visibleHistory t.db.commits project (project.commits.length + 1) project.head [] with
    _ | history
  · exact h.same _
  simp only
  generalize (if rule.retainedPrefixLen (history.map Prod.snd) = 0 then none
    else history[rule.retainedPrefixLen (history.map Prod.snd) - 1]?) = last
  rcases last with _ | last
  · exact h.same _
  apply sameAnswer_persisted
  rw [modify_found found, modify_found (found'.symm.trans found)]
  exact h.withProject handle (h.commits handle project found) (h.blobs handle project found)

/-! Answers that change nothing. -/

theorem getCommit_same (h : Alike owner s t) (handle id : String) :
    getCommit owner handle id s = getCommit owner handle id t := by
  unfold getCommit
  rw [← h.projects]
  rcases found : projectFor s.db owner handle with _ | project
  · rfl
  simp only
  by_cases hid : id ∉ project.commits
  · rw [if_pos hid, if_pos hid]
  · rw [if_neg hid, if_neg hid, h.commits handle project found id (not_not.mp hid)]

theorem getHistory_same (h : Alike owner s t) (handle : String) (limit : Option Nat)
    (before : Option String) :
    getHistory owner handle limit before s = getHistory owner handle limit before t := by
  unfold getHistory
  rw [← h.projects]
  rcases found : projectFor s.db owner handle with _ | project
  · rfl
  simp only
  rw [historyLoop_congr (h.commits handle project found)]

theorem postBlobsHas_same (h : Alike owner s t) (handle : String) (hashes : List String) :
    postBlobsHas {} owner handle hashes s = postBlobsHas {} owner handle hashes t := by
  unfold postBlobsHas
  rw [← h.projects]
  rcases found : projectFor s.db owner handle with _ | project
  · rfl
  simp only [hasBlob_quiet, Response.present.injEq]
  apply List.map_congr_left
  intro hash _
  by_cases hlisted : hash ∈ project.blobs
  · rw [h.blobs handle project found hash hlisted]
  · rw [decide_eq_false hlisted, Bool.false_and, Bool.false_and]

theorem getBlob_same (h : Alike owner s t) (handle hash : String) :
    getBlob {} owner handle hash s = getBlob {} owner handle hash t := by
  unfold getBlob
  rw [← h.projects]
  rcases found : projectFor s.db owner handle with _ | project
  · rfl
  simp only [readBlob_quiet]
  by_cases hlisted : hash ∉ project.blobs
  · rw [if_pos hlisted, if_pos hlisted]
  · rw [if_neg hlisted, if_neg hlisted, h.blobs handle project found hash (not_not.mp hlisted)]

theorem getHead_same (h : Alike owner s t) (handle : String) :
    getHead owner handle s = getHead owner handle t := by
  rw [getHead, getHead, h.projects]

theorem getProjects_same (hs : Closed c s) (ht : Closed c t) (h : Alike owner s t) :
    getProjects s owner = getProjects t owner := by
  rw [getProjects, getProjects, h.ownProjects_eq hs ht]

variable [DecidableEq Hash]

theorem putBlob_same (hinjective : Function.Injective c.F.contentHash) (hs : Closed c s)
    (ht : Closed c t) (h : Alike owner s t) (handle hash : String) (body : Bytes) :
    SameAnswer owner (putBlob c.F c.parseHash {} owner handle hash body s)
      (putBlob c.F c.parseHash {} owner handle hash body t) := by
  unfold putBlob
  rcases hparsed : c.parseHash hash with error | parsed
  · exact h.same _
  simp only
  by_cases hhash : c.F.contentHash body ≠ parsed
  · rw [if_pos hhash, if_pos hhash]
    exact h.same _
  rw [if_neg hhash, if_neg hhash, ← h.projects]
  rcases found : projectFor s.db owner handle with _ | project
  · exact h.same _
  have hbody : c.parseHash hash = .ok (c.F.contentHash body) := by rw [hparsed, not_not.mp hhash]
  obtain ⟨written, hwrite, hblob, hdb⟩ := writeBlob_quiet hs hinjective hbody
  obtain ⟨written', hwrite', hblob', hdb'⟩ := writeBlob_quiet ht hinjective hbody
  simp only [hwrite, hwrite']
  have halike : Alike owner written written' := h.stored hblob hblob' hdb hdb'
  have hfound : projectFor written.db owner handle = some project := by
    rw [projectFor, hdb.1]
    exact found
  have hfound' : projectFor written'.db owner handle = some project :=
    (halike.projects handle).symm.trans hfound
  apply sameAnswer_persisted
  rw [modify_found hfound, modify_found hfound']
  refine halike.withProject handle (fun id hid => halike.commits handle project hfound id hid) ?_
  intro hash' hmem
  rcases mem_insertKey.mp hmem with rfl | hmem
  · rw [hblob, hblob', if_pos rfl, if_pos rfl]
  · exact halike.blobs handle project hfound hash' hmem

theorem postCommit_same (h : Alike owner s t) (authenticated : AuthenticatedIdentity)
    (handle : String) (commit : Commit Hash) :
    SameAnswer owner (postCommit c.F c.jcs c.parseHash {} owner authenticated handle commit s)
      (postCommit c.F c.jcs c.parseHash {} owner authenticated handle commit t) := by
  unfold postCommit
  rcases hid : FilesystemProvider.computeCommitId (formats c.F c.jcs c.parseHash) commit with
    error | computed
  · exact h.same _
  simp only
  by_cases hcomputed : commit.id ≠ computed
  · rw [if_pos hcomputed, if_pos hcomputed]
    exact h.same _
  rw [if_neg hcomputed, if_neg hcomputed]
  by_cases hauthor : authorMatches commit.author authenticated = false
  · rw [if_pos hauthor, if_pos hauthor]
    exact h.same _
  have found' := h.projects handle
  rw [if_neg hauthor, if_neg hauthor, ← found']
  rcases found : projectFor s.db owner handle with _ | project
  · exact h.same _
  simp only
  by_cases hparents : (commit.parents.any fun parent => c.F.hashText parent ∉ project.commits) = true
  · rw [if_pos hparents, if_pos hparents]
    exact h.same _
  rw [if_neg hparents, if_neg hparents]
  by_cases hblobs : ((requiredBlobs c.F commit).any fun hash => hash ∉ project.blobs) = true
  · rw [if_pos hblobs, if_pos hblobs]
    exact h.same _
  have hsamples : c.F.hashText commit.tree.samples ∈ project.blobs := by
    have hall : ∀ hash ∈ requiredBlobs c.F commit, hash ∈ project.blobs := by simpa using hblobs
    exact hall _ (by simp [requiredBlobs])
  rw [if_neg hblobs, if_neg hblobs, readBlob_quiet, readBlob_quiet,
    h.blobs handle project found _ hsamples]
  rcases t.blob? (c.F.hashText commit.tree.samples) with _ | bytes
  · exact h.same _
  simp only
  rcases c.F.decodeManifest bytes with error | manifest
  · exact h.same _
  simp only
  by_cases hentries :
      (manifest.entries.any fun entry => c.F.hashText entry.hash ∉ project.blobs) = true
  · rw [if_pos hentries, if_pos hentries]
    exact h.same _
  rw [if_neg hentries, if_neg hentries]
  apply sameAnswer_persisted
  have hcommit := h.withCommit (c.F.hashText commit.id) (canonicalValue c.F commit)
  have hmodified := modify_found (s := s.withCommit (c.F.hashText commit.id)
    (canonicalValue c.F commit)) found fun project =>
      { project with commits := insertKey (c.F.hashText commit.id) project.commits }
  have hmodified' := modify_found (s := t.withCommit (c.F.hashText commit.id)
    (canonicalValue c.F commit)) (found'.symm.trans found) fun project =>
      { project with commits := insertKey (c.F.hashText commit.id) project.commits }
  refine hmodified ▸ hmodified' ▸ hcommit.withProject handle ?_ (hcommit.blobs handle project found)
  intro id hmem
  rcases mem_insertKey.mp hmem with rfl | hmem
  · simp only [State.withCommit, get?_insert, if_true]
  · exact hcommit.commits handle project found id hmem

/-! Runs. -/

omit [DecidableEq Hash] in
/-- The principal that a request comes from, if its token is accepted. -/
def principalOf (c : Config Bytes Hash) (request : Request Bytes Hash) : Option Principal :=
  match @requireAuth Bytes c.auth request.token with
  | .ok (identity, _) => some identity.principal
  | .error _ => none

omit [DecidableEq Hash] in
theorem principalOf_eq_some_iff {request : Request Bytes Hash} :
    principalOf c request = some owner ↔ ∃ identity authenticated,
      @requireAuth Bytes c.auth request.token = .ok (identity, authenticated) ∧
        identity.principal = owner := by
  unfold principalOf
  rcases @requireAuth Bytes c.auth request.token with response | ⟨identity, authenticated⟩
  · simp
  · simp

theorem handle_of_auth (s : State Bytes) {request : Request Bytes Hash} {identity : TokenIdentity}
    {authenticated : AuthenticatedIdentity}
    (hauth : @requireAuth Bytes c.auth request.token = .ok (identity, authenticated)) :
    handle c s request = answer c identity authenticated request.faults s request.call := by
  unfold handle
  cases hcall : request.call with
  | health => rfl
  | _ => rw [hauth]

theorem answer_same (hinjective : Function.Injective c.F.contentHash) (hs : Closed c s)
    (ht : Closed c t) (identity : TokenIdentity) (authenticated : AuthenticatedIdentity)
    (h : Alike identity.principal s t) (call : Call Bytes Hash) :
    SameAnswer identity.principal (answer c identity authenticated {} s call)
      (answer c identity authenticated {} t call) := by
  cases call with
  | health => exact h.same _
  | me => exact h.same _
  | projects => exact ⟨getProjects_same hs ht h, h⟩
  | putProjectProfile handle profile => exact putProjectProfile_same h handle profile
  | getHead handle => exact ⟨getHead_same h handle, h⟩
  | postHead handle fromHead toHead => exact postHead_same h handle fromHead toHead
  | postCommit handle commit => exact postCommit_same h authenticated handle commit.1
  | getCommit handle id => exact ⟨getCommit_same h handle id, h⟩
  | getHistory handle limit before => exact ⟨getHistory_same h handle limit before, h⟩
  | postRetention handle rule => exact postRetention_same h handle rule
  | postBlobsHas handle hashes => exact ⟨postBlobsHas_same h handle hashes, h⟩
  | putBlob handle hash body => exact putBlob_same hinjective hs ht h handle hash body
  | getBlob handle hash => exact ⟨getBlob_same h handle hash, h⟩

def mine (c : Config Bytes Hash) (owner : Principal) (request : Request Bytes Hash) : Bool :=
  decide (principalOf c request = some owner)

theorem unwinding (hC : CanonicalJson c.F c.jcs fun text => (c.parseHash text).toOption)
    (owner : Principal) :
    Purge.Unwinding (handle c) (mine c owner) (fun request => request.faults = {}) (Closed c)
      (Alike owner) where
  keeps := fun hs => hs.handle hC _
  own := by
    intro s t request hquiet hs ht h hmine
    obtain ⟨identity, authenticated, hauth, rfl⟩ :=
      principalOf_eq_some_iff.mp (of_decide_eq_true hmine)
    rw [handle_of_auth s hauth, handle_of_auth t hauth, hquiet]
    exact answer_same hC.hash_injective hs ht identity authenticated h request.call
  other := by
    intro s t request hs h hother
    have hne : principalOf c request ≠ some owner := of_decide_eq_false hother
    rcases handle_eq (c := c) s request with hsame | ⟨identity, authenticated, hauth, hanswer⟩
    · rw [hsame]
      exact h
    · obtain ⟨hissuer, huser⟩ := requireAuth_ok hauth
      rw [hanswer]
      refine h.otherChanges hC hs hissuer ?_ (answer_handled huser request.call).changes
      intro heq
      exact hne (principalOf_eq_some_iff.mpr ⟨identity, authenticated, hauth, heq⟩)

/-- What others ask for changes no answer that a principal gets. -/
theorem answers_isolated (hC : CanonicalJson c.F c.jcs fun text => (c.parseHash text).toOption)
    (owner : Principal) (dataDir : Bool) {requests requests' : List (Request Bytes Hash)}
    (hquiet : ∀ request ∈ requests, principalOf c request = some owner → request.faults = {})
    (h : requests.filter (mine c owner) = requests'.filter (mine c owner)) :
    Purge.answers (handle c) (mine c owner) (State.empty dataDir) requests =
      Purge.answers (handle c) (mine c owner) (State.empty dataDir) requests' := by
  apply (unwinding hC owner).answers_eq (closed_empty c dataDir) (.refl owner _) ?_ h
  intro request hmem hmine
  exact hquiet request hmem (of_decide_eq_true hmine)

end Isolation

/-! Two users of one server. -/

def guestClaims : Value :=
  .object [("name", .string "Guest"), ("scope", .string "projects"), ("sub", .string "user-2")]

def asGuest (call : Call String String) : Request String String := ⟨some (.ok guestClaims), call, {}⟩

/-- The guest uploads a blob, then the test user asks for it. -/
theorem takeRequests_isolated :
    Purge.answers (handle takeConfig) (mine takeConfig ⟨"https://id.example", "user-1"⟩)
        (State.empty true)
        [asTestUser (.putProjectProfile "song" ⟨"Song", "ableton", ⟨none, []⟩, none⟩),
          asGuest (.putProjectProfile "song" ⟨"Mine", "ableton", ⟨none, []⟩, none⟩),
          asGuest (.putBlob "song" "snapshot" "snapshot"),
          asTestUser (.postBlobsHas "song" ["snapshot"])] =
      Purge.answers (handle takeConfig) (mine takeConfig ⟨"https://id.example", "user-1"⟩)
        (State.empty true)
        [asTestUser (.putProjectProfile "song" ⟨"Song", "ableton", ⟨none, []⟩, none⟩),
          asTestUser (.postBlobsHas "song" ["snapshot"])] := by
  apply answers_isolated takeConfig_canonical
  · intro request hmem _
    simp only [List.mem_cons, List.not_mem_nil, or_false] at hmem
    rcases hmem with rfl | rfl | rfl | rfl <;> rfl
  · have huser : ∀ call, mine takeConfig ⟨"https://id.example", "user-1"⟩ (asTestUser call) = true := by
      intro call
      change mine takeConfig ⟨"https://id.example", "user-1"⟩ (asTestUser .me) = true
      decide
    have hguest : ∀ call, mine takeConfig ⟨"https://id.example", "user-1"⟩ (asGuest call) = false := by
      intro call
      change mine takeConfig ⟨"https://id.example", "user-1"⟩ (asGuest .me) = false
      decide
    simp [huser, hguest]

end Server

end AuruPm
