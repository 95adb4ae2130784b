import AuruPm.ProviderRuns
import AuruPm.VisibleHistory

/-!
# Where the folder stops answering

A folder that has all objects of a project answers every operation that the server accepts, but
for a retention pass that protects a commit it never had. Up to the first failure of the folder,
the two providers answer alike.
-/

namespace AuruPm

set_option autoImplicit false

open SortedAssoc

namespace Server

/-! Objects. -/

section Objects
variable {Bytes Hash : Type} [DecidableEq Hash] {c : Config Bytes Hash} {s : State Bytes}
  {owner : Principal} {handle : String} {project : StoredProject}
  {p : FilesystemProvider Bytes Hash} {faults : Faults} {now : Nat}
  (hC : CanonicalJson c.F c.jcs fun text => (c.parseHash text).toOption)

omit [DecidableEq Hash] in
include hC in
theorem parseHash_inj {hash hash' : Hash} (h : c.parseHash (c.F.hashText hash) = .ok hash') :
    hash' = hash := by
  have hparsed := hC.parse_hash hash
  rw [h] at hparsed
  exact Option.some.inj hparsed

theorem put_accepts {F : Formats Bytes Hash} {cas : Cas Bytes Hash} {hash : Hash} {bytes : Bytes}
    (h : F.contentHash bytes = hash) : ∃ cas', cas.put F now hash bytes = .ok cas' := by
  unfold Cas.put
  simp only [h, ne_eq, not_true_eq_false, if_false]
  split
  · exact ⟨_, rfl⟩
  · exact ⟨_, rfl⟩

include hC

theorem HasAll.commit {text : String} (h : HasAll c.F project p) (htext : text ∈ project.commits)
    {id : Hash} (hid : c.F.hashText id = text) : p.commits.has id = true := by
  obtain ⟨id', hsame, hhas⟩ := h.commits text htext
  rw [← hid] at hsame
  rwa [← hashText_inj hC hsame]

theorem HasAll.blob {text : String} (h : HasAll c.F project p) (htext : text ∈ project.blobs)
    {hash : Hash} (hhash : c.F.hashText hash = text) : p.blobs.has hash = true := by
  obtain ⟨hash', hsame, hhas⟩ := h.blobs text htext
  rw [← hhash] at hsame
  rwa [← hashText_inj hC hsame]

/-- The server accepted the commit that a file of the folder holds. -/
theorem Held.accepted {e : Hash × StoredFile Bytes} {commit : Commit Hash}
    (h : Held c s project e commit) (hclosed : ProjectClosed c owner s project) :
    Accepted c owner s project commit := by
  obtain ⟨old, haccepted, htext, -⟩ := hclosed.commits _ h.listed
  obtain ⟨bytes, hplain, hjcs⟩ := h.text
  apply haccepted.same hC h.typed ?_ (hashText_inj hC htext)
  apply map_ok_iff.mpr
  exact ⟨bytes, hjcs, (Cas.plain_hash hplain).trans h.id.symm⟩

/-- All that a commit of the folder keeps alive is there. -/
theorem Tracks.objects (h : Tracks c s project p) (hall : HasAll c.F project p) (hs : Closed c s)
    (hclosed : ProjectClosed c owner s project) {e : Hash × StoredFile Bytes}
    {commit : Commit Hash} (hheld : Held c s project e commit) :
    ∃ manifest, p.readManifest (formats c.F c.jcs c.parseHash) {} commit = .ok manifest ∧
      ∀ hash ∈ FilesystemProvider.commitBlobs commit manifest, p.blobs.has hash = true := by
  have haccepted := hheld.accepted hC hclosed
  have hrequired : ∀ hash ∈ [commit.tree.snapshot, commit.tree.samples] ++ commit.metadata.toList,
      p.blobs.has hash = true := fun hash hmem =>
    hall.blob hC (haccepted.blobs _ (List.mem_map_of_mem hmem)) rfl
  obtain ⟨bytes, manifest, hbytes, hmanifest, hentries⟩ := haccepted.manifest
  obtain ⟨file, hget⟩ := Option.isSome_iff_exists.mp (hrequired commit.tree.samples (by simp))
  obtain ⟨content, hplain⟩ := h.blobs _ (mem_of_get? hget)
  have hsame : content = bytes := by
    apply hC.hash_injective
    rw [Cas.plain_hash hplain, parseHash_inj hC (hs.stored _ _ hbytes)]
  refine ⟨manifest, ?_, fun hash hmem => ?_⟩
  · rw [FilesystemProvider.readManifest_ok_iff]
    exact ⟨content, Cas.get_ok_iff.mpr ⟨file, hget, rfl, hplain⟩, hsame ▸ hmanifest⟩
  · rcases List.mem_append.mp hmem with hmem | hmem
    · exact hrequired hash hmem
    · obtain ⟨entry, hentry, rfl⟩ := List.mem_map.mp hmem
      exact hall.blob hC (hentries entry hentry) rfl

omit hC in
theorem validate_accepts {F : Formats Bytes Hash} {commit : Commit Hash}
    {manifest : SampleManifest Hash} (hread : p.readManifest F {} commit = .ok manifest)
    (hblobs : ∀ hash ∈ FilesystemProvider.commitBlobs commit manifest, p.blobs.has hash = true) :
    p.validateCommitObjects F {} commit = .ok () := by
  have hsnapshot : p.blobs.has commit.tree.snapshot = true :=
    hblobs _ (by simp [FilesystemProvider.commitBlobs])
  have hmetadata : (commit.metadata.filter fun metadata => !p.blobs.has metadata) = none := by
    rw [Option.filter_eq_none_iff]
    intro metadata hmem
    rw [hblobs metadata (by simp [FilesystemProvider.commitBlobs, hmem])]
    exact Bool.false_ne_true
  have hentries : ((manifest.entries.map SampleEntry.hash).find? fun hash => !p.blobs.has hash) =
      none := by
    rw [List.find?_eq_none]
    intro hash hmem
    rw [hblobs hash (List.mem_append_right _ hmem)]
    exact Bool.false_ne_true
  unfold FilesystemProvider.validateCommitObjects
  rw [hsnapshot, hmetadata]
  simp only [Bool.not_true, Bool.false_eq_true, if_false, hread, bind, Except.bind, hentries]

end Objects

/-! Operations of a folder that has everything. -/

section Serving
variable {Bytes Hash : Type} [DecidableEq Hash] {c : Config Bytes Hash} {s : State Bytes}
  {owner : Principal} {handle : String} {project : StoredProject}
  {p : FilesystemProvider Bytes Hash} {faults : Faults} {now : Nat}
  (hC : CanonicalJson c.F c.jcs fun text => (c.parseHash text).toOption)

include hC

theorem putBlob_serves {hash : Hash} {bytes : Bytes}
    (haccepted : (putBlob c.F c.parseHash faults owner handle (c.F.hashText hash) bytes
      s).2.accepted = true) :
    ∃ p', p.putBlob (formats c.F c.jcs c.parseHash) now hash bytes = .ok p' := by
  rcases putBlob_cases c faults owner s handle (c.F.hashText hash) bytes with
    ⟨response, hrefused, heq⟩ | ⟨_, _, _, hparsed, _, _⟩
  · rw [heq, hrefused] at haccepted
    cases haccepted
  · obtain ⟨blobs, hput⟩ := @put_accepts _ _ _ now (formats c.F c.jcs c.parseHash) p.blobs hash bytes
      (parseHash_inj hC hparsed)
    exact ⟨{ p with blobs := blobs }, map_ok_iff.mpr ⟨blobs, hput, rfl⟩⟩

omit hC in
theorem putCommit_serves {authenticated : AuthenticatedIdentity}
    (huser : authenticated.userId = owner.subject)
    (found : projectFor s.db owner handle = some project) {commit : WireCommit Hash}
    (haccepted : (postCommit c.F c.jcs c.parseHash faults owner authenticated handle commit.1
      s).2.accepted = true) :
    ∃ p', p.putCommit (formats c.F c.jcs c.parseHash) now commit.1 = .ok p' := by
  obtain ⟨accepted, -⟩ := postCommit_accepted huser found haccepted
  obtain ⟨bytes, htext, hhash⟩ := map_ok_iff.mp accepted.id
  exact FilesystemProvider.putCommit_accepts htext hhash

theorem Tracks.advances (h : Tracks c s project p) (hall : HasAll c.F project p) (hs : Closed c s)
    (found : projectFor s.db owner handle = some project) {fromHead : Option Hash} {toHead : Hash}
    (haccepted : (postHead faults owner handle (fromHead.map c.F.hashText) (c.F.hashText toHead)
      s).2.accepted = true) :
    ∃ result, p.advanceHead (formats c.F c.jcs c.parseHash) {} fromHead toHead = .ok result := by
  obtain ⟨head, hhead, hcontrol⟩ := h.head
  obtain ⟨floor, hfloor, hboundary⟩ := h.floor
  obtain ⟨_, found', hcases⟩ := postHead_accepted haccepted
  rw [found] at found'
  cases found'
  unfold FilesystemProvider.advanceHead
  rw [readHead_control hcontrol, readFloor_control hboundary]
  by_cases hsame : head ≠ fromHead
  · exact ⟨(p, .conflict head), by simp [orFail, bind, Except.bind, hsame]; rfl⟩
  · rcases hcases with ⟨hne, -⟩ | ⟨-, hlisted, -⟩
    · rw [hhead, not_not.mp hsame] at hne
      exact absurd rfl hne
    obtain ⟨file, commit, hheld, hread⟩ := h.read hC (hall.commit hC hlisted rfl)
    obtain ⟨manifest, hmanifest, hblobs⟩ := h.objects hC hall hs (hs.found found).2.2.2 hheld
    have hvalid := validate_accepts hmanifest hblobs
    refine ⟨({ p with head := .names toHead }, .advanced), ?_⟩
    cases floor with
    | none => simp [orFail, bind, Except.bind, hsame]; rfl
    | some floor => simp [orFail, bind, Except.bind, hsame, hread, hvalid]; rfl

/-- The line of a head can be read down to the boundary. -/
theorem Tracks.line (h : Tracks c s project p) (hall : HasAll c.F project p) (floor : Option Hash)
    {start : Option Hash} {start' : Option String} {line : List String}
    (hline : Walk.Chain (fun k => (.ok k : Except Empty String)) (project.parent s.db.commits)
      (fun _ => false) start' line) (hstart : start' = start.map c.F.hashText)
    (hlisted : ∀ x ∈ line, x ∈ project.commits) :
    ∃ commits, p.History (formats c.F c.jcs c.parseHash) floor start commits := by
  induction hline generalizing start with
  | nil =>
    cases start with
    | none => exact ⟨[], .nil⟩
    | some id => cases hstart
  | stop _ hs => cases hs
  | @cons k v line hr _ hrest ih =>
    cases hr
    cases start with
    | none => cases hstart
    | some id =>
      cases hstart
      have hmem := hlisted _ List.mem_cons_self
      obtain ⟨file, commit, hheld, hread⟩ := h.read hC (hall.commit hC hmem rfl)
      by_cases hstop : some id = floor
      · exact ⟨[commit], .stop hread (decide_eq_true hstop)⟩
      · have hparent : project.parent s.db.commits (c.F.hashText id) =
            commit.parents.head?.map c.F.hashText := by
          have hid : commit.id = id := hheld.id
          have hstored := hheld.stored
          rw [hid] at hstored
          rw [parent_of_stored hmem hstored, firstParent_canonicalValue]
        obtain ⟨commits, hcommits⟩ := ih hparent fun x hx => hlisted x (List.mem_cons_of_mem _ hx)
        exact ⟨commit :: commits, .cons hread (decide_eq_false hstop) hcommits⟩

theorem Tracks.visible (h : Tracks c s project p) (hall : HasAll c.F project p)
    (found : projectFor s.db owner handle = some project)
    (hgrounded : (timeline s owner handle).Grounded) :
    ∃ commits, p.visibleCommits (formats c.F c.jcs c.parseHash) {} = .ok commits := by
  obtain ⟨head, hhead, hcontrol⟩ := h.head
  obtain ⟨floor, hfloor, hboundary⟩ := h.floor
  rw [timeline_found found] at hgrounded
  obtain ⟨commits, hcommits⟩ : ∃ commits,
      p.History (formats c.F c.jcs c.parseHash) floor head commits := by
    cases head with
    | none => exact ⟨[], .nil⟩
    | some id =>
      obtain ⟨line, hline, hlisted⟩ := hgrounded.lines _ (hgrounded.head _ hhead)
      exact h.line hC hall floor hline rfl hlisted
  refine ⟨commits, FilesystemProvider.visibleCommits_ok_iff.mpr ⟨floor, head, ?_, ?_, ?_⟩⟩
  · exact readFloor_control hboundary
  · exact readHead_control hcontrol
  · exact FilesystemProvider.firstParents_ok_iff.mpr hcommits

/-- A pass reads the history, what it protects, and their ancestors. -/
theorem Tracks.prunes (h : Tracks c s project p) (hall : HasAll c.F project p) (hs : Closed c s)
    (found : projectFor s.db owner handle = some project)
    (hgrounded : (timeline s owner handle).Grounded) (rule : RetentionRule)
    {roots : RetentionRoots Hash} (hroots : ∀ id ∈ roots.commits, p.commits.has id = true) :
    ∃ report, (p.pruneHistory (formats c.F c.jcs c.parseHash) {} rule roots now).result =
      .ok report := by
  have hclosed := (hs.found found).2.2.2
  obtain ⟨history, hvisible⟩ := h.visible hC hall found hgrounded
  apply FilesystemProvider.prune_ok_of_readable now retentionGcGraceSecs hvisible
  intro id hkept
  have hhas : p.commits.has id = true := by
    induction hkept with
    | root hmem =>
      rcases List.mem_append.mp hmem with hmem | hmem
      · obtain ⟨commit, hcommit, rfl⟩ := List.mem_map.mp hmem
        obtain ⟨floor, head, _, _, hwalk⟩ := FilesystemProvider.visibleCommits_ok_iff.mp hvisible
        have hread := FilesystemProvider.read_of_firstParents hwalk commit
          (List.mem_of_mem_take hcommit)
        exact Cas.has_iff.mpr (FilesystemProvider.readCommit_stored _ _ hread)
      · exact hroots _ hmem
    | step _ hread hparent _ =>
      obtain ⟨file, hheld⟩ := h.held hC hread
      unfold FilesystemProvider.parentsToFloor at hparent
      split at hparent
      · cases hparent
      · exact hall.commit hC ((hheld.accepted hC hclosed).parents _ hparent) rfl
  obtain ⟨file, commit, hheld, hread⟩ := h.read hC hhas
  obtain ⟨manifest, hmanifest, -⟩ := h.objects hC hall hs hclosed hheld
  exact ⟨commit, manifest, hread, hmanifest⟩

end Serving

/-! Turns and runs. -/

section Runs
variable {Bytes Hash : Type} [DecidableEq Hash] {c : Config Bytes Hash} {s : State Bytes}
  {owner : Principal} {handle : String} {project : StoredProject}
  {p p' : FilesystemProvider Bytes Hash} {turn : Turn Bytes Hash}

theorem Turn.By.handle_eq (h : turn.By c owner) (s : State Bytes) (handle : String) :
    ∃ identity authenticated, identity.principal = owner ∧
      authenticated.userId = owner.subject ∧
        Server.handle c s (turn.request c.F handle) =
          answer c identity authenticated turn.faults s (turn.operation.call c.F handle) := by
  obtain ⟨identity, authenticated, hauth, howner⟩ := h
  refine ⟨identity, authenticated, howner, ?_, ?_⟩
  · rw [(requireAuth_ok hauth).2, ← howner]
    rfl
  · unfold Server.handle Turn.request
    simp only [hauth]
    cases turn.operation <;> rfl

variable (hC : CanonicalJson c.F c.jcs fun text => (c.parseHash text).toOption)
  (hframe : ∀ b, c.F.decodeFrame (c.F.encodeFrame b) = some b)

include hC

include hframe in
/-- What the folder answers is what the server answers. -/
theorem Tracks.sameAnswer (h : Tracks c s project p) (found : projectFor s.db owner handle = some project)
    (hby : turn.By c owner) (hexact : turn.Exact)
    (haccepted : (Server.handle c s (turn.request c.F handle)).2.accepted = true)
    {answer : Answer Hash} (hfolder : turn.operation.onFolder (formats c.F c.jcs c.parseHash)
      turn.now p = .ok (p', answer)) :
    Corresponds c.F (Server.handle c s (turn.request c.F handle)).2 answer ∧
      Follows c owner handle project p (Server.handle c s (turn.request c.F handle)).1 p'
        answer := by
  obtain ⟨identity, authenticated, rfl, huser, hresult⟩ := hby.handle_eq s handle
  rw [hresult] at haccepted ⊢
  cases hop : turn.operation with
  | putBlob hash bytes =>
    rw [hop] at haccepted hfolder
    obtain ⟨next, hnext, heq⟩ := map_ok_iff.mp hfolder
    cases heq
    obtain ⟨hresponse, hfollows⟩ := h.putBlob hframe found haccepted hnext
    refine ⟨?_, hfollows⟩
    change Corresponds c.F (Server.putBlob _ _ _ _ _ _ _ _).2 _
    rw [hresponse]
    trivial
  | putCommit commit =>
    rw [hop] at haccepted hfolder
    obtain ⟨next, hnext, heq⟩ := map_ok_iff.mp hfolder
    cases heq
    obtain ⟨hresponse, hfollows⟩ :=
      h.putCommit hC hframe huser found (hexact commit hop) haccepted hnext
    refine ⟨?_, hfollows⟩
    change Corresponds c.F (postCommit _ _ _ _ _ _ _ _ _).2 _
    rw [hresponse]
    rfl
  | advanceHead fromHead toHead =>
    rw [hop] at haccepted hfolder
    obtain ⟨⟨next, result⟩, hnext, heq⟩ := map_ok_iff.mp hfolder
    cases heq
    exact h.advanceHead hC found haccepted hnext
  | getHead =>
    rw [hop] at hfolder
    obtain ⟨id, hhead, hcontrol⟩ := h.head
    obtain ⟨id', hid, heq⟩ := map_ok_iff.mp hfolder
    cases heq
    have hread : p.getHead {} = .ok id := readHead_control hcontrol
    rw [hread] at hid
    cases hid
    refine ⟨?_, project, found, h, fun hall _ => hall⟩
    change (projectFor s.db identity.principal handle).bind StoredProject.head = _
    rw [found, Option.bind_some, hhead]
  | listHistory range =>
    rw [hop] at haccepted hfolder
    obtain ⟨commits, hcommits, heq⟩ := map_ok_iff.mp hfolder
    cases heq
    exact ⟨h.listHistory hC found haccepted hcommits, project, found, h, fun hall _ => hall⟩
  | retention rule roots =>
    rw [hop] at haccepted hfolder
    obtain ⟨report, hreport, heq⟩ := map_ok_iff.mp hfolder
    cases heq
    exact h.retention hC found haccepted hreport

/-- A pass protects commits that the folder has. -/
def Turn.ProtectsStored (turn : Turn Bytes Hash) (p : FilesystemProvider Bytes Hash) : Prop :=
  ∀ rule roots, turn.operation = .retention rule roots →
    ∀ id ∈ roots.commits, p.commits.has id = true

theorem Tracks.serves (h : Tracks c s project p) (hall : HasAll c.F project p) (hs : Closed c s)
    (found : projectFor s.db owner handle = some project)
    (hgrounded : (timeline s owner handle).Grounded) (hby : turn.By c owner)
    (haccepted : (Server.handle c s (turn.request c.F handle)).2.accepted = true)
    (hprotects : turn.ProtectsStored p) :
    ∃ p' answer, turn.operation.onFolder (formats c.F c.jcs c.parseHash) turn.now p =
      .ok (p', answer) := by
  obtain ⟨identity, authenticated, rfl, huser, hresult⟩ := hby.handle_eq s handle
  rw [hresult] at haccepted
  cases hop : turn.operation with
  | putBlob hash bytes =>
    rw [hop] at haccepted
    obtain ⟨next, hnext⟩ := @putBlob_serves _ _ _ c s _ _ p _ turn.now hC _ _ haccepted
    exact ⟨next, .stored, map_ok_iff.mpr ⟨next, hnext, rfl⟩⟩
  | putCommit commit =>
    rw [hop] at haccepted
    obtain ⟨next, hnext⟩ := @putCommit_serves _ _ _ c s _ _ project p _ turn.now _ huser found _
      haccepted
    exact ⟨next, .posted commit.1.id, map_ok_iff.mpr ⟨next, hnext, rfl⟩⟩
  | advanceHead fromHead toHead =>
    rw [hop] at haccepted
    obtain ⟨⟨next, result⟩, hnext⟩ := h.advances hC hall hs found haccepted
    exact ⟨next, .advance result, map_ok_iff.mpr ⟨(next, result), hnext, rfl⟩⟩
  | getHead =>
    obtain ⟨id, -, hcontrol⟩ := h.head
    have hread : p.getHead {} = .ok id := readHead_control hcontrol
    exact ⟨p, .head id, map_ok_iff.mpr ⟨id, hread, rfl⟩⟩
  | listHistory range =>
    obtain ⟨visible, hvisible⟩ := h.visible hC hall found hgrounded
    obtain ⟨commits, hcommits, -⟩ := FilesystemProvider.listHistory_of_visible hvisible range
    exact ⟨p, .history commits, map_ok_iff.mpr ⟨commits, hcommits, rfl⟩⟩
  | retention rule roots =>
    obtain ⟨report, hreport⟩ := @Tracks.prunes _ _ _ c s _ _ project p turn.now hC h hall hs found
      hgrounded rule roots (hprotects rule roots hop)
    exact ⟨_, .retention report, map_ok_iff.mpr ⟨report, hreport, rfl⟩⟩

include hframe in
theorem Tracks.run {turns : List (Turn Bytes Hash)} (h : Tracks c s project p)
    (found : projectFor s.db owner handle = some project) (hby : ∀ turn ∈ turns, turn.By c owner)
    (hexact : ∀ turn ∈ turns, turn.Exact)
    (haccepted : ∀ response ∈ responses c s (turns.map (Turn.request c.F handle)),
      response.accepted = true) {answers : List (Answer Hash)}
    (hfolder : folderRun (formats c.F c.jcs c.parseHash) p turns = .ok (p', answers)) :
    List.Forall₂ (Corresponds c.F) (responses c s (turns.map (Turn.request c.F handle))) answers ∧
      ∃ project', projectFor (Server.run c s (turns.map (Turn.request c.F handle))).db owner handle =
          some project' ∧
        Tracks c (Server.run c s (turns.map (Turn.request c.F handle))) project' p' ∧
          (HasAll c.F project p → (∀ answer ∈ answers, answer.Spares) → HasAll c.F project' p') := by
  induction turns generalizing s project p answers with
  | nil =>
    cases hfolder
    exact ⟨.nil, project, found, h, fun hall _ => hall⟩
  | cons turn turns ih =>
    rw [List.forall_mem_cons] at hby hexact
    rw [List.map_cons, responses, List.forall_mem_cons] at haccepted
    simp only [folderRun, bind_ok_iff] at hfolder
    obtain ⟨⟨next, answer⟩, hnext, ⟨last, rest⟩, hrest, heq⟩ := hfolder
    cases heq
    obtain ⟨hsame, middle, hmiddle, htracks, hkept⟩ :=
      h.sameAnswer hC hframe found hby.1 hexact.1 haccepted.1 hnext
    obtain ⟨hsames, project', found', htracks', hkept'⟩ :=
      ih htracks hmiddle hby.2 hexact.2 haccepted.2 hrest
    refine ⟨.cons hsame hsames, project', found', htracks', fun hall hspares => ?_⟩
    rw [List.forall_mem_cons] at hspares
    exact hkept' (hkept hall hspares.1) hspares.2

end Runs

section Agreement
variable {Bytes Hash : Type} [DecidableEq Hash] {c : Config Bytes Hash}

theorem responses_append (s : State Bytes) (requests more : List (Request Bytes Hash)) :
    responses c s (requests ++ more) =
      responses c s requests ++ responses c (run c s requests) more := by
  induction requests generalizing s with
  | nil => rfl
  | cons request requests ih =>
    rw [List.cons_append, responses, responses, ih, List.cons_append]
    rfl

structure StoredProject.Fresh (project : StoredProject) : Prop where
  head : project.head = none
  floor : project.historyFloor = none
  commits : project.commits = []
  blobs : project.blobs = []

def freshFolder : FilesystemProvider Bytes Hash := ⟨.missing, .missing, [], []⟩

theorem tracks_fresh {s : State Bytes} {project : StoredProject} (h : project.Fresh) :
    Tracks c s project freshFolder ∧ HasAll c.F project freshFolder := by
  refine ⟨⟨⟨none, h.head, rfl⟩, ⟨none, h.floor, rfl⟩, (fun _ he => nomatch he),
    fun _ he => nomatch he⟩, ?_, ?_⟩
  · intro text htext
    rw [h.commits] at htext
    cases htext
  · intro text htext
    rw [h.blobs] at htext
    cases htext

end Agreement

/-! Two versions on both providers. -/

def pieceTurn (now : Nat) (operation : Operation String String) : Turn String String :=
  ⟨some (.ok takeClaims), {}, now, operation⟩

def newPiece : List (Request String String) :=
  [asTestUser (.putProjectProfile "song" ⟨"Song", "ableton", ⟨none, []⟩, none⟩)]

def newSong : StoredProject :=
  registered ⟨"Song", "ableton", ⟨none, []⟩, none⟩ { owner := some testUser, handle := some "song" }

/-- Two versions, of which a pass at this time keeps the latest. -/
def duetTurns (now : Nat) : List (Turn String String) :=
  ([.putBlob "raw:snapshot" "snapshot", .putBlob "raw:samples" "samples",
      .putCommit ⟨solo, typed_solo⟩, .advanceHead none "blake3:solo",
      .putCommit ⟨duet, typed_duet⟩,
      .advanceHead (some "blake3:solo") "blake3:duet"].map (pieceTurn 0)) ++
    [pieceTurn now (.retention (.latest 1) ⟨[], []⟩), pieceTurn now (.listHistory ⟨none, none⟩)]

/-- And back to the first version. -/
def returnTurns (now : Nat) : List (Turn String String) :=
  duetTurns now ++ [pieceTurn now (.advanceHead (some "blake3:duet") "blake3:solo")]

theorem newSong_found : projectFor (run pieceConfig (State.empty true) newPiece).db testUser "song" =
    some newSong := by
  decide +kernel

def testIdentity : TokenIdentity := ⟨"https://id.example", "user-1", "Test User", none, ["projects"]⟩

theorem takeClaims_identity :
    (⟨"https://id.example", "projects", ["name"], "email"⟩ : TokenValidationPolicy).identityFromClaims
      takeClaims = .ok testIdentity := by
  decide +kernel

theorem pieceTurn_by (now : Nat) (operation : Operation String String) :
    (pieceTurn now operation).By pieceConfig testUser := by
  refine ⟨testIdentity, ⟨"local-folder", "user-1", "Test User", none⟩, ?_, rfl⟩
  simp only [requireAuth, pieceConfig, takeConfig, pieceTurn, Except.bind, takeClaims_identity]
  rfl

theorem returnTurns_by (now : Nat) : ∀ turn ∈ returnTurns now, turn.By pieceConfig testUser := by
  simp only [returnTurns, duetTurns, List.map_cons, List.map_nil, List.cons_append, List.nil_append,
    List.forall_mem_cons, pieceTurn_by, true_and]
  exact fun _ h => nomatch h

theorem returnTurns_exact (now : Nat) : ∀ turn ∈ returnTurns now, turn.Exact := by
  intro turn hturn commit hcommit
  simp only [returnTurns, duetTurns, List.map_cons, List.map_nil, List.cons_append, List.nil_append,
    List.mem_cons, List.not_mem_nil, or_false] at hturn
  rcases hturn with rfl | rfl | rfl | rfl | rfl | rfl | rfl | rfl | rfl <;> cases hcommit
  · exact (by decide : Binary64.print 1 = 1)
  · exact (by decide : Binary64.print 2 = 2)

/-- The server does not look at the folder's clock. -/
theorem returnTurns_accepted (now : Nat) :
    ∀ response ∈ responses pieceConfig (run pieceConfig (State.empty true) newPiece)
      ((returnTurns now).map (Turn.request pieceConfig.F "song")), response.accepted = true := by
  change ∀ response ∈ responses pieceConfig (run pieceConfig (State.empty true) newPiece)
    ((returnTurns 0).map (Turn.request pieceConfig.F "song")), response.accepted = true
  decide +kernel

theorem returnTurns_stored : (folderRun
    (formats pieceConfig.F pieceConfig.jcs pieceConfig.parseHash) freshFolder
      (returnTurns 0)).isOk = true := by
  decide +kernel

end Server

end AuruPm
