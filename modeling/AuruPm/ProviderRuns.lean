import AuruPm.RetentionRace
import AuruPm.ServerRetention

/-!
# One run on two providers

The operations that the server serves on a project and the filesystem provider serves on a folder.
The folder keeps what the server has of the project: whatever it still answers, it answers alike.
-/

namespace AuruPm

set_option autoImplicit false

open SortedAssoc

namespace Server

/-! Operations. -/

inductive Operation (Bytes Hash : Type) where
  | putBlob (hash : Hash) (bytes : Bytes)
  | putCommit (commit : WireCommit Hash)
  | advanceHead (fromHead : Option Hash) (toHead : Hash)
  | getHead
  | listHistory (range : HistoryRange Hash)
  | retention (rule : RetentionRule) (roots : RetentionRoots Hash)

/-- An operation with what its request meets at the server, and the time on the folder's clock. -/
structure Turn (Bytes Hash : Type) where
  token : Option (Except AuthError Value)
  faults : Faults := {}
  now : Nat
  operation : Operation Bytes Hash

inductive Answer (Hash : Type) where
  | stored
  | posted (id : Hash)
  | advance (result : HeadAdvance Hash)
  | head (id : Option Hash)
  | history (commits : List (CommitSummary Hash))
  | retention (report : RetentionReport)
  deriving DecidableEq

section Runs
variable {Bytes Hash : Type}

def Operation.call (F : Formats Bytes Hash) (handle : String) :
    Operation Bytes Hash → Call Bytes Hash
  | .putBlob hash bytes => .putBlob handle (F.hashText hash) bytes
  | .putCommit commit => .postCommit handle commit
  | .advanceHead fromHead toHead =>
    .postHead handle (fromHead.map F.hashText) (F.hashText toHead)
  | .getHead => .getHead handle
  | .listHistory range => .getHistory handle range.limit (range.before.map F.hashText)
  | .retention rule _ => .postRetention handle rule

def Turn.request (F : Formats Bytes Hash) (handle : String) (turn : Turn Bytes Hash) :
    Request Bytes Hash :=
  ⟨turn.token, turn.operation.call F handle, turn.faults⟩

variable [DecidableEq Hash]

/-- The operation on a folder where no file operation fails. -/
def Operation.onFolder (F : Formats Bytes Hash) (now : Nat) (p : FilesystemProvider Bytes Hash) :
    Operation Bytes Hash → Except Error (FilesystemProvider Bytes Hash × Answer Hash)
  | .putBlob hash bytes => (p.putBlob F now hash bytes).map fun p => (p, .stored)
  | .putCommit commit => (p.putCommit F now commit.1).map fun p => (p, .posted commit.1.id)
  | .advanceHead fromHead toHead =>
    (p.advanceHead F {} fromHead toHead).map fun (p, result) => (p, .advance result)
  | .getHead => (p.getHead {}).map fun id => (p, .head id)
  | .listHistory range => (p.listHistory F {} range).map fun commits => (p, .history commits)
  | .retention rule roots =>
    let pruned := p.pruneHistory F {} rule roots now
    pruned.result.map fun report => (pruned.provider, .retention report)

/-- The run on a folder, up to the first operation that fails. -/
def folderRun (F : Formats Bytes Hash) (p : FilesystemProvider Bytes Hash) :
    List (Turn Bytes Hash) → Except Error (FilesystemProvider Bytes Hash × List (Answer Hash))
  | [] => .ok (p, [])
  | turn :: turns => do
    let (p, answer) ← turn.operation.onFolder F turn.now p
    let (p, answers) ← folderRun F p turns
    return (p, answer :: answers)

def responses (c : Config Bytes Hash) (s : State Bytes) :
    List (Request Bytes Hash) → List (Response Bytes)
  | [] => []
  | request :: requests =>
    (handle c s request).2 :: responses c (handle c s request).1 requests

/-- A summary in a page of the server. -/
def summaryValue (F : Formats Bytes Hash) (summary : CommitSummary Hash) : Value :=
  structValue
    [("id", hashValue F summary.id), ("parents", .array (summary.parents.map (hashValue F))),
      ("author", authorValue summary.author), ("timestamp", .number (.ofInt summary.timestamp)),
      ("message", .string summary.message), ("description", .string summary.description)]

/-- A response of the server and an answer of the folder that say the same. Retention frees
nothing on the server. -/
def Corresponds (F : Formats Bytes Hash) : Response Bytes → Answer Hash → Prop
  | .ok, .stored => True
  | .posted text, .posted id => text = F.hashText id
  | .advanced, .advance .advanced => True
  | .conflict current, .advance (.conflict id) => current = id.map F.hashText
  | .head text, .head id => text = id.map F.hashText
  | .history values, .history commits => values = commits.map (summaryValue F)
  | .retention report, .retention report' => report.versionsRemoved = report'.versionsRemoved
  | _, _ => False

/-- The request comes from the owner of the project. -/
def Turn.By (c : Config Bytes Hash) (owner : Principal) (turn : Turn Bytes Hash) : Prop :=
  ∃ identity authenticated,
    @requireAuth Bytes c.auth turn.token = .ok (identity, authenticated) ∧
      identity.principal = owner

/-- A commit to put has a timestamp that canonical JSON keeps. -/
def Turn.Exact (turn : Turn Bytes Hash) : Prop :=
  ∀ commit, turn.operation = .putCommit commit → commit.1.Exact

/-- What a project of the server has, and a folder may still have. -/
def controlFile : Option Hash → ControlFile Hash
  | none => .missing
  | some id => .names id

/-- A commit file with a commit of the project. -/
structure Held (c : Config Bytes Hash) (s : State Bytes) (project : StoredProject)
    (e : Hash × StoredFile Bytes) (commit : Commit Hash) : Prop where
  typed : commit.Typed
  exact : commit.Exact
  id : commit.id = e.1
  text : ∃ bytes, Cas.plain c.F e.1 e.2 = some bytes ∧ c.jcs (canonicalValue c.F commit) = .ok bytes
  listed : c.F.hashText commit.id ∈ project.commits
  stored : get? s.db.commits (c.F.hashText commit.id) = some (canonicalValue c.F commit)

/-- A folder that has the head and the boundary of a project, and of its objects no other ones. -/
structure Tracks (c : Config Bytes Hash) (s : State Bytes) (project : StoredProject)
    (p : FilesystemProvider Bytes Hash) : Prop where
  head : ∃ id, project.head = id.map c.F.hashText ∧ p.head = controlFile id
  floor : ∃ id, project.historyFloor = id.map c.F.hashText ∧ p.floor = controlFile id
  commits : ∀ e ∈ p.commits, ∃ commit, Held c s project e commit
  blobs : ∀ e ∈ p.blobs, ∃ bytes, Cas.plain c.F e.1 e.2 = some bytes

/-- A folder that still has all objects of a project. -/
structure HasAll (F : Formats Bytes Hash) (project : StoredProject)
    (p : FilesystemProvider Bytes Hash) : Prop where
  commits : ∀ text ∈ project.commits, ∃ id, F.hashText id = text ∧ p.commits.has id = true
  blobs : ∀ text ∈ project.blobs, ∃ hash, F.hashText hash = text ∧ p.blobs.has hash = true

/-- A retention pass that removed no object. -/
def Answer.Spares (answer : Answer Hash) : Prop :=
  ∀ report, answer = .retention report → report.objectsRemoved = 0

end Runs

/-! What the server does when it accepts. -/

section Accepting
variable {Bytes Hash : Type} {s : State Bytes} {faults : Faults} {owner : Principal}
  {handle : String}

theorem mutatePersisted_accepted {mutation : Db Bytes → Db Bytes} {done : Response Bytes}
    {failed : String} (h : (s.mutatePersisted faults mutation done failed).2.accepted = true) :
    s.mutatePersisted faults mutation done failed = ({ s with db := mutation s.db }, done) := by
  unfold State.mutatePersisted Db.mutatePersisted at h ⊢
  cases hdir : s.db.dataDir with
  | false => rfl
  | true =>
    rw [hdir] at h
    cases hfault : faults.persist with
    | none => rfl
    | some error =>
      rw [hfault] at h
      cases h

theorem postHead_accepted {fromHead : Option String} {toHead : String}
    (h : (postHead faults owner handle fromHead toHead s).2.accepted = true) :
    ∃ project, projectFor s.db owner handle = some project ∧
      ((project.head ≠ fromHead ∧
          postHead faults owner handle fromHead toHead s = (s, .conflict project.head)) ∨
        (project.head = fromHead ∧ toHead ∈ project.commits ∧ ∃ updatedAt,
          postHead faults owner handle fromHead toHead s =
            (s.withProject owner handle { project with head := some toHead, updatedAt := updatedAt },
              .advanced))) := by
  unfold postHead at h ⊢
  cases found : projectFor s.db owner handle with
  | none =>
    rw [found] at h
    cases h
  | some project =>
    simp only [found] at h ⊢
    refine ⟨project, rfl, ?_⟩
    by_cases hhead : project.head ≠ fromHead
    · rw [if_pos hhead]
      exact Or.inl ⟨hhead, rfl⟩
    · rw [if_neg hhead] at h ⊢
      by_cases hlisted : toHead ∉ project.commits
      · rw [if_pos hlisted] at h
        cases h
      · rw [if_neg hlisted] at h ⊢
        refine Or.inr ⟨not_not.mp hhead, not_not.mp hlisted,
          ((get? s.db.commits toHead).map timestampOf).getD 0, ?_⟩
        rw [mutatePersisted_accepted h, modify_found found]

/-- The version that becomes the boundary. -/
def newFloor {A : Type} (rule : RetentionRule) (timestamp : A → Int) (history : List A) : Option A :=
  let retainedLen := rule.retainedPrefixLen (history.map timestamp)
  if retainedLen = 0 then none else history[retainedLen - 1]?

theorem postRetention_accepted {rule : RetentionRule}
    (h : (postRetention faults owner handle rule s).2.accepted = true) :
    ∃ project history, projectFor s.db owner handle = some project ∧
      visibleHistory s.db.commits project (project.commits.length + 1) project.head [] =
        some history ∧
      ((newFloor rule Prod.snd history = none ∧
          postRetention faults owner handle rule s = (s, .retention ⟨0, 0, 0⟩)) ∨
        ∃ floor, newFloor rule Prod.snd history = some floor ∧
          postRetention faults owner handle rule s =
            (s.withProject owner handle { project with historyFloor := some floor.1 },
              .retention ⟨history.length - rule.retainedPrefixLen (history.map Prod.snd), 0, 0⟩)) := by
  unfold postRetention at h ⊢
  cases found : projectFor s.db owner handle with
  | none =>
    rw [found] at h
    cases h
  | some project =>
    simp only [found] at h ⊢
    cases hhistory : visibleHistory s.db.commits project (project.commits.length + 1)
        project.head [] with
    | none =>
      rw [hhistory] at h
      cases h
    | some history =>
      simp only [hhistory] at h ⊢
      refine ⟨project, history, rfl, hhistory, ?_⟩
      cases hfloor : newFloor rule Prod.snd history with
      | none =>
        refine Or.inl ⟨rfl, ?_⟩
        unfold newFloor at hfloor
        simp only [hfloor]
      | some floor =>
        refine Or.inr ⟨floor, rfl, ?_⟩
        unfold newFloor at hfloor
        simp only [hfloor] at h ⊢
        rw [mutatePersisted_accepted h, modify_found found]

end Accepting

/-! What the folder reads. -/

section Reading
variable {Bytes Hash : Type} {F : Formats Bytes Hash}

theorem summaryOf_full (commit : Commit Hash) :
    summaryOf (fullCommit (F.hashText commit.id) (canonicalValue F commit)) =
      summaryValue F commit.summary := by
  cases hm : commit.metadata <;>
    simp [summaryOf, summaryValue, fullCommit, canonicalValue, commitValue, structValue,
      Value.remove, Value.set, Value.get, skipNone, get?_insert, get?_erase, hm, hashValue,
      Commit.summary]

theorem readI64_ofInt {i : Int} (hlow : -2 ^ 63 ≤ i) (hhigh : i < 2 ^ 63) :
    readI64 (.number (.ofInt i)) = some i := by
  cases i with
  | ofNat n =>
    have hn : n < 2 ^ 63 := Int.ofNat_lt.mp hhigh
    have hword : (UInt64.ofNat n).toNat = n := toNat_ofNat_of_lt (by omega)
    rw [Number.ofInt, readI64, hword, if_pos hn]
    rfl
  | negSucc n => rw [Number.ofInt, readI64, ofInt_toInt hlow hhigh]

theorem timestampOf_canonicalValue {commit : Commit Hash} (ht : commit.Typed) :
    timestampOf (canonicalValue F commit) = commit.timestamp := by
  have hvalue : (canonicalValue F commit).get "timestamp" =
      some (.number (.ofInt commit.timestamp)) := by
    cases hm : commit.metadata <;>
      simp [canonicalValue, commitValue, structValue, Value.remove, Value.get, skipNone,
        get?_erase, get?_insert, hm]
  rw [timestampOf, hvalue, Option.bind_some, readI64_ofInt ht.timestamp.1 ht.timestamp.2,
    Option.getD_some]

variable [DecidableEq Hash] {c : Config Bytes Hash} {s : State Bytes} {project : StoredProject}
  {p : FilesystemProvider Bytes Hash}
  (hC : CanonicalJson c.F c.jcs fun text => (c.parseHash text).toOption)

include hC

theorem Held.read {e : Hash × StoredFile Bytes} {commit : Commit Hash}
    (h : Held c s project e commit) (hget : get? p.commits e.1 = some e.2) :
    p.readCommit (formats c.F c.jcs c.parseHash) {} e.1 = .ok commit := by
  obtain ⟨bytes, hplain, htext⟩ := h.text
  obtain ⟨d, hd, hcommit⟩ := (hC.decode_iff h.typed htext).mpr h.exact
  rw [h.id] at hcommit
  exact FilesystemProvider.readCommit_ok_iff.mpr
    ⟨bytes, d, Cas.get_ok_iff.mpr ⟨e.2, hget, rfl, hplain⟩, hd, hcommit⟩

theorem Tracks.read (h : Tracks c s project p) {id : Hash} (hhas : p.commits.has id = true) :
    ∃ file commit, Held c s project (id, file) commit ∧
      p.readCommit (formats c.F c.jcs c.parseHash) {} id = .ok commit := by
  obtain ⟨file, hget⟩ := Option.isSome_iff_exists.mp hhas
  obtain ⟨commit, hheld⟩ := h.commits _ (mem_of_get? hget)
  exact ⟨file, commit, hheld, hheld.read hC hget⟩

theorem Tracks.held (h : Tracks c s project p) {id : Hash} {commit : Commit Hash}
    (hread : p.readCommit (formats c.F c.jcs c.parseHash) {} id = .ok commit) :
    ∃ file, Held c s project (id, file) commit := by
  have hhas : p.commits.has id = true :=
    get?_isSome_iff.mpr (FilesystemProvider.readCommit_stored id commit hread)
  obtain ⟨file, found, hheld, hfound⟩ := h.read hC hhas
  rw [hread] at hfound
  cases hfound
  exact ⟨file, hheld⟩

omit [DecidableEq Hash] in
theorem map_hashText_iff {a b : Option Hash} :
    a.map c.F.hashText = b.map c.F.hashText ↔ a = b :=
  (Option.map_injective fun _ _ => hashText_inj hC).eq_iff

/-- The two loops over the history collect the same summaries. -/
theorem Tracks.sameHistory (h : Tracks c s project p) {floor before : Option Hash} {limit : Nat}
    (hfloor : project.historyFloor = floor.map c.F.hashText) {rounds rounds' : Nat}
    {start : Option Hash} {started : Bool} {out values : List Value}
    {out' commits : List (CommitSummary Hash)} (hout : out = out'.map (summaryValue c.F))
    (hserver : historyLoop s.db.commits project limit (before.map c.F.hashText) rounds
      (start.map c.F.hashText) started out = some values)
    (hfolder : p.historyLoop (formats c.F c.jcs c.parseHash) {} floor before limit rounds' start
      started out' = .ok commits) : values = commits.map (summaryValue c.F) := by
  induction rounds' generalizing rounds start started out out' with
  | zero =>
    cases start with
    | none =>
      cases rounds <;> cases hserver <;> cases hfolder <;> exact hout
    | some id => cases hfolder
  | succ rounds' ih =>
    cases start with
    | none =>
      cases rounds <;> cases hserver <;> cases hfolder <;> exact hout
    | some id =>
      cases rounds with
      | zero => cases hserver
      | succ rounds =>
        rw [FilesystemProvider.historyLoop] at hfolder
        cases hread : p.readCommit (formats c.F c.jcs c.parseHash) {} id with
        | error e =>
          rw [hread] at hfolder
          cases hfolder
        | ok commit =>
          obtain ⟨file, hheld⟩ := h.held hC hread
          have hid : commit.id = id := hheld.id
          have hlisted := hheld.listed
          have hstored := hheld.stored
          rw [hid] at hlisted hstored
          have hsummary := @summaryOf_full _ _ c.F commit
          rw [hid] at hsummary
          have hstop : some (c.F.hashText id) = project.historyFloor ↔ some id = floor := by
            rw [hfloor]
            exact @map_hashText_iff _ _ c hC (some id) floor
          have hcursor : decide (some (c.F.hashText id) = before.map c.F.hashText) =
              decide (some id = before) :=
            decide_eq_decide.mpr (@map_hashText_iff _ _ c hC (some id) before)
          have hmore : (if started = true then out ++ [summaryValue c.F commit.summary] else out) =
              (if started = true then out' ++ [commit.summary] else out').map
                (summaryValue c.F) := by
            rw [hout]
            cases started with
            | false => rfl
            | true => simp
          rw [hread] at hfolder
          rw [Option.map_some, Server.historyLoop, if_neg (not_not.mpr hlisted), hstored] at hserver
          simp only [hsummary, hmore, hcursor, List.length_map, firstParent_canonicalValue]
            at hserver hfolder
          generalize (if started = true then out' ++ [commit.summary] else out') = more
            at hserver hfolder
          by_cases hlimit : started = true ∧ limit ≤ more.length
          · rw [if_pos hlimit] at hserver hfolder
            cases hserver
            cases hfolder
            rfl
          · rw [if_neg hlimit] at hserver hfolder
            by_cases hend : some id = floor
            · rw [if_pos (hstop.mpr hend)] at hserver
              rw [if_pos hend] at hfolder
              cases hserver
              cases hfolder
              rfl
            · rw [if_neg (mt hstop.mp hend)] at hserver
              rw [if_neg hend] at hfolder
              exact ih rfl hserver hfolder

theorem Tracks.visible_step (h : Tracks c s project p) {floor : Option Hash}
    (hfloor : project.historyFloor = floor.map c.F.hashText) {id : Hash} {commit : Commit Hash}
    (hread : p.readCommit (formats c.F c.jcs c.parseHash) {} id = .ok commit) (rounds : Nat)
    (seen : List (String × Int)) :
    visibleHistory s.db.commits project (rounds + 1) (some (c.F.hashText id)) seen =
      if some id = floor then some (seen ++ [(c.F.hashText commit.id, commit.timestamp)])
      else visibleHistory s.db.commits project rounds (commit.parents.head?.map c.F.hashText)
        (seen ++ [(c.F.hashText commit.id, commit.timestamp)]) := by
  obtain ⟨file, hheld⟩ := h.held hC hread
  have hid : commit.id = id := hheld.id
  have hstop : some (c.F.hashText id) = project.historyFloor ↔ some id = floor := by
    rw [hfloor]
    exact @map_hashText_iff _ _ c hC (some id) floor
  rw [← hid] at hstop ⊢
  rw [visibleHistory, hheld.stored]
  simp only [hheld.listed, not_true_eq_false, if_false, firstParent_canonicalValue,
    timestampOf_canonicalValue hheld.typed, hstop]

/-- The two walks down to the boundary meet the same versions. -/
theorem Tracks.sameVisible (h : Tracks c s project p) {floor start : Option Hash}
    (hfloor : project.historyFloor = floor.map c.F.hashText) {commits : List (Commit Hash)}
    (hfolder : p.History (formats c.F c.jcs c.parseHash) floor start commits) {rounds : Nat}
    {history seen : List (String × Int)}
    (hserver : visibleHistory s.db.commits project rounds (start.map c.F.hashText) seen =
      some history) :
    history = seen ++ commits.map fun commit => (c.F.hashText commit.id, commit.timestamp) := by
  induction hfolder generalizing rounds seen with
  | nil =>
    cases rounds <;> cases hserver <;> exact (List.append_nil _).symm
  | @stop id commit hread hstop =>
    cases rounds with
    | zero => cases hserver
    | succ rounds =>
      rw [Option.map_some, h.visible_step hC hfloor hread, if_pos (of_decide_eq_true hstop)]
        at hserver
      cases hserver
      rfl
  | @cons id commit commits hread hstop hrest ih =>
    cases rounds with
    | zero => cases hserver
    | succ rounds =>
      rw [Option.map_some, h.visible_step hC hfloor hread, if_neg (of_decide_eq_false hstop)]
        at hserver
      rw [ih hserver, List.append_assoc, List.singleton_append, List.map_cons]

end Reading

/-! What a call of the folder does when it ends well. -/

section Folder
variable {Bytes Hash : Type} [DecidableEq Hash] {F : Formats Bytes Hash}
  {p p' : FilesystemProvider Bytes Hash}

omit [DecidableEq Hash] in
theorem readHead_control {id : Option Hash} (h : p.head = controlFile id) :
    p.readHead {} = .ok id := by
  rw [FilesystemProvider.readHead, h]
  cases id <;> rfl

omit [DecidableEq Hash] in
theorem readFloor_control {id : Option Hash} (h : p.floor = controlFile id) :
    p.readHistoryFloor {} = .ok id := by
  rw [FilesystemProvider.readHistoryFloor, h]
  cases id <;> rfl

theorem advanceHead_cases {id fromHead : Option Hash} {toHead : Hash} {result : HeadAdvance Hash}
    (hhead : p.head = controlFile id)
    (h : p.advanceHead F {} fromHead toHead = .ok (p', result)) :
    (id ≠ fromHead ∧ p' = p ∧ result = .conflict id) ∨
      (id = fromHead ∧ p' = { p with head := .names toHead } ∧ result = .advanced) := by
  cases result with
  | advanced =>
    obtain ⟨hread, hp, -⟩ := FilesystemProvider.advanceHead_spec h
    rw [readHead_control hhead] at hread
    exact Or.inr ⟨Except.ok.inj hread, hp, rfl⟩
  | conflict current =>
    unfold FilesystemProvider.advanceHead at h
    simp only [bind_ok_iff, readHead_control hhead] at h
    obtain ⟨_, _, current', hcurrent, h⟩ := h
    cases hcurrent
    split at h
    · rename_i hne
      cases h
      exact Or.inl ⟨hne, rfl, rfl⟩
    · simp only [bind_ok_iff] at h
      obtain ⟨floor, -, h⟩ := h
      split at h
      · simp only [bind_ok_iff] at h
        obtain ⟨_, _, _, _, h⟩ := h
        cases h
      · cases h

theorem newFloor_map {A B : Type} (rule : RetentionRule) (timestamp : B → Int) (f : A → B)
    (history : List A) : newFloor rule timestamp (history.map f) =
      (newFloor rule (fun a => timestamp (f a)) history).map f := by
  simp only [newFloor, List.map_map, List.getElem?_map, Function.comp_def]
  split <;> rfl

theorem planRetention_newFloor {rule : RetentionRule} {roots : RetentionRoots Hash}
    {plan : Option (FilesystemProvider.Plan Hash)} (h : p.planRetention F {} rule roots = .ok plan) :
    ∃ history, p.visibleCommits F {} = .ok history ∧
      match newFloor rule Commit.timestamp history with
      | none => plan = none
      | some last => ∃ planned, plan = some planned ∧ planned.floor = last.id ∧
          planned.versionsRemoved =
            history.length - rule.retainedPrefixLen (history.map Commit.timestamp) := by
  simp only [FilesystemProvider.planRetention, bind_ok_iff] at h
  obtain ⟨_, _, history, hhistory, h⟩ := h
  refine ⟨history, hhistory, ?_⟩
  rcases hlast : newFloor rule Commit.timestamp history with _ | last <;> unfold newFloor at hlast
  · simp only [hlast] at h
    cases h
    rfl
  · simp only [hlast, bind_ok_iff] at h
    obtain ⟨graph, _, blobs, _, h⟩ := h
    cases h
    exact ⟨_, rfl, rfl, rfl⟩

/-- A sweep that counts no removed file removed none. -/
theorem gc_spares {faults : CasFaults Hash} {now grace : Nat} {reachable : List Hash}
    {cas : Cas Bytes Hash} {report result : GcReport}
    (h : (Cas.gc F faults now grace reachable cas report).2 = .ok result) :
    report.freedCount ≤ result.freedCount ∧ (result.freedCount = report.freedCount →
      (Cas.gc F faults now grace reachable cas report).1 = cas) := by
  induction cas generalizing report with
  | nil =>
    cases h
    exact ⟨Nat.le_refl _, fun _ => rfl⟩
  | cons first files ih =>
    obtain ⟨hash, file⟩ := first
    simp only [Cas.gc] at h ⊢
    split at h
    · cases h
    · split at h
      · rename_i hexpired
        split at h
        · rename_i hstuck
          obtain ⟨hle, hsame⟩ := ih h
          simp only [hexpired, hstuck, if_true]
          exact ⟨hle, fun heq => by rw [hsame heq]⟩
        · obtain ⟨hle, -⟩ := ih h
          simp only at hle
          exact ⟨by omega, fun heq => by omega⟩
      · rename_i hkept
        obtain ⟨hle, hsame⟩ := ih h
        simp only [hkept, Bool.false_eq_true, if_false]
        exact ⟨hle, fun heq => by rw [hsame heq]⟩

theorem mem_swept {now grace : Nat} {plan : FilesystemProvider.Plan Hash} :
    (∀ e ∈ (FilesystemProvider.swept F {} now grace plan p).blobs, e ∈ p.blobs) ∧
      ∀ e ∈ (FilesystemProvider.swept F {} now grace plan p).commits, e ∈ p.commits := by
  unfold FilesystemProvider.swept FilesystemProvider.sweep
  split
  rename_i blobs result heq
  have hblobs : ∀ e ∈ blobs, e ∈ p.blobs := by
    intro e he
    apply Cas.mem_of_mem_gc
    rw [heq]
    exact he
  split
  · exact ⟨hblobs, fun _ he => he⟩
  · exact ⟨hblobs, fun _ he => Cas.mem_of_mem_gc he⟩

theorem swept_spares {now grace : Nat} {plan : FilesystemProvider.Plan Hash}
    {report : RetentionReport}
    (h : FilesystemProvider.sweptResult F {} now grace plan p = .ok report)
    (hnone : report.objectsRemoved = 0) :
    (FilesystemProvider.swept F {} now grace plan p).blobs = p.blobs ∧
      (FilesystemProvider.swept F {} now grace plan p).commits = p.commits := by
  unfold FilesystemProvider.sweptResult FilesystemProvider.sweep at h
  unfold FilesystemProvider.swept FilesystemProvider.sweep
  split at h
  rename_i blobs result heq
  cases result with
  | error e => cases h
  | ok blobReport =>
    simp only at h
    obtain ⟨commitReport, hcommits, hreport⟩ := map_ok_iff.mp h
    rw [← hreport] at hnone
    simp only at hnone
    have hblobs := @gc_spares _ _ _ F {} now grace plan.blobs p.blobs
      FilesystemProvider.noGc blobReport (by rw [heq])
    have hgone := gc_spares hcommits
    rw [heq] at hblobs
    simp only
    exact ⟨hblobs.2 (by simp only [FilesystemProvider.noGc]; omega),
      hgone.2 (by simp only [FilesystemProvider.noGc]; omega)⟩

end Folder

/-! Single turns. -/

section Steps
variable {Bytes Hash : Type} [DecidableEq Hash] {c : Config Bytes Hash} {s s' : State Bytes}
  {owner : Principal} {handle : String} {project project' : StoredProject}
  {p p' : FilesystemProvider Bytes Hash} {faults : Faults} {now : Nat}

/-- The folder still tracks the project, and has all of its objects if it had and removed none. -/
def Follows (c : Config Bytes Hash) (owner : Principal) (handle : String) (project : StoredProject)
    (p : FilesystemProvider Bytes Hash) (s' : State Bytes) (p' : FilesystemProvider Bytes Hash)
    (answer : Answer Hash) : Prop :=
  ∃ project', projectFor s'.db owner handle = some project' ∧ Tracks c s' project' p' ∧
    (HasAll c.F project p → answer.Spares → HasAll c.F project' p')

theorem Held.same {e : Hash × StoredFile Bytes} {commit : Commit Hash}
    (h : Held c s project e commit) (hdb : s'.db.commits = s.db.commits)
    (hlisted : project'.commits = project.commits) : Held c s' project' e commit :=
  ⟨h.typed, h.exact, h.id, h.text, hlisted ▸ h.listed, by rw [hdb]; exact h.stored⟩

omit [DecidableEq Hash] in
theorem projectFor_self (s : State Bytes) (owner : Principal) (handle : String)
    (project : StoredProject) :
    projectFor (s.withProject owner handle project).db owner handle = some project :=
  (projectFor_withProject s owner owner handle handle project).trans (if_pos ⟨rfl, rfl⟩)

theorem plain_put {F : Formats Bytes Hash} (hframe : ∀ b, F.decodeFrame (F.encodeFrame b) = some b)
    {cas cas' : Cas Bytes Hash} {hash : Hash} {bytes : Bytes}
    (hput : cas.put F now hash bytes = .ok cas') {e : Hash × StoredFile Bytes} (he : e ∈ cas') :
    e ∈ cas ∨ e.1 = hash ∧ Cas.plain F e.1 e.2 = some bytes := by
  obtain ⟨hhash, ⟨rfl, -⟩ | ⟨rfl, -⟩⟩ := Cas.put_cases hput
  · exact Or.inl he
  · rcases List.mem_cons.mp he with rfl | he
    · exact Or.inr ⟨rfl, by simp [Cas.plain, hframe, hhash]⟩
    · exact Or.inl he

theorem Tracks.putBlob (hframe : ∀ b, c.F.decodeFrame (c.F.encodeFrame b) = some b)
    (h : Tracks c s project p) (found : projectFor s.db owner handle = some project)
    {hash : Hash} {bytes : Bytes}
    (haccepted : (putBlob c.F c.parseHash faults owner handle (c.F.hashText hash) bytes
      s).2.accepted = true)
    (hfolder : p.putBlob (formats c.F c.jcs c.parseHash) now hash bytes = .ok p') :
    (putBlob c.F c.parseHash faults owner handle (c.F.hashText hash) bytes s).2 = .ok ∧
      Follows c owner handle project p
        (putBlob c.F c.parseHash faults owner handle (c.F.hashText hash) bytes s).1 p'
        .stored := by
  rcases putBlob_cases c faults owner s handle (c.F.hashText hash) bytes with
    ⟨response, hrefused, heq⟩ | ⟨_, written, found', -, hwritten, heq⟩
  · rw [heq, hrefused] at haccepted
    cases haccepted
  rw [found] at found'
  cases found'
  have hsame : written.db.commits = s.db.commits ∧ written.db.projects = s.db.projects := by
    rcases hwritten with ⟨rfl, -⟩ | rfl
    · exact ⟨rfl, rfl⟩
    · exact ⟨withBlob_commits _ _ _, withBlob_projects _ _ _⟩
  have hfound : projectFor written.db owner handle = some project := by
    rw [projectFor, hsame.2]
    exact found
  rw [heq] at haccepted ⊢
  rw [mutatePersisted_accepted haccepted, modify_found hfound]
  obtain ⟨blobs, hput, rfl⟩ := map_ok_iff.mp hfolder
  refine ⟨rfl, _, projectFor_self _ _ _ _, ⟨h.head, h.floor, ?_, ?_⟩, ?_⟩
  · intro e he
    obtain ⟨commit, hheld⟩ := h.commits e he
    exact ⟨commit, hheld.same hsame.1 rfl⟩
  · intro e he
    rcases plain_put hframe hput he with he | ⟨-, hplain⟩
    · exact h.blobs e he
    · exact ⟨bytes, hplain⟩
  · intro hall _
    refine ⟨hall.commits, fun text htext => ?_⟩
    rcases mem_insertKey.mp htext with rfl | htext
    · exact ⟨hash, rfl, Cas.has_put_self hput⟩
    · obtain ⟨other, hother, hhas⟩ := hall.blobs text htext
      exact ⟨other, hother, Cas.has_put hput hhas⟩

omit [DecidableEq Hash] in
/-- A text that is read back as it was written belongs to one commit of an id. -/
theorem eq_of_text (hC : CanonicalJson c.F c.jcs fun text => (c.parseHash text).toOption)
    {commit other : Commit Hash} (ht : commit.Typed) (ho : other.Typed) (hexact : commit.Exact)
    (hexact' : other.Exact) {bytes : Bytes} (htext : c.jcs (canonicalValue c.F commit) = .ok bytes)
    (htext' : c.jcs (canonicalValue c.F other) = .ok bytes) (hid : commit.id = other.id) :
    commit = other := by
  obtain ⟨d, hd, hcommit⟩ := (hC.decode_iff ht htext).mpr hexact
  obtain ⟨d', hd', hother⟩ := (hC.decode_iff ho htext').mpr hexact'
  rw [hd, Except.ok.injEq] at hd'
  rw [hcommit, hother, ← hd', hid]

theorem postCommit_accepted {authenticated : AuthenticatedIdentity}
    (huser : authenticated.userId = owner.subject)
    (found : projectFor s.db owner handle = some project) {commit : WireCommit Hash}
    (haccepted : (postCommit c.F c.jcs c.parseHash faults owner authenticated handle commit.1
      s).2.accepted = true) :
    Accepted c owner s project commit.1 ∧
      postCommit c.F c.jcs c.parseHash faults owner authenticated handle commit.1 s =
        ((s.withCommit (c.F.hashText commit.1.id) (canonicalValue c.F commit.1)).withProject owner
            handle
            { project with commits := insertKey (c.F.hashText commit.1.id) project.commits },
          .posted (c.F.hashText commit.1.id)) := by
  rcases postCommit_cases (c := c) faults s huser handle commit with
    ⟨response, hrefused, heq⟩ | ⟨_, found', accepted, heq⟩
  · rw [heq, hrefused] at haccepted
    cases haccepted
  rw [found] at found'
  cases found'
  have hmodified := modify_found (s := s.withCommit (c.F.hashText commit.1.id)
    (canonicalValue c.F commit.1)) found fun project =>
      { project with commits := insertKey (c.F.hashText commit.1.id) project.commits }
  rw [heq] at haccepted ⊢
  rw [mutatePersisted_accepted haccepted]
  exact ⟨accepted, congrArg (fun t => (t, _)) hmodified⟩

theorem Tracks.putCommit (hC : CanonicalJson c.F c.jcs fun text => (c.parseHash text).toOption)
    (hframe : ∀ b, c.F.decodeFrame (c.F.encodeFrame b) = some b) (h : Tracks c s project p)
    {authenticated : AuthenticatedIdentity} (huser : authenticated.userId = owner.subject)
    (found : projectFor s.db owner handle = some project) {commit : WireCommit Hash}
    (hexact : commit.1.Exact)
    (haccepted : (postCommit c.F c.jcs c.parseHash faults owner authenticated handle commit.1
      s).2.accepted = true)
    (hfolder : p.putCommit (formats c.F c.jcs c.parseHash) now commit.1 = .ok p') :
    (postCommit c.F c.jcs c.parseHash faults owner authenticated handle commit.1 s).2 =
        .posted (c.F.hashText commit.1.id) ∧
      Follows c owner handle project p
        (postCommit c.F c.jcs c.parseHash faults owner authenticated handle commit.1 s).1 p'
        (.posted commit.1.id) := by
  obtain ⟨accepted, hresult⟩ := postCommit_accepted huser found haccepted
  obtain ⟨-, bytes, commits, htext, hput, rfl⟩ := FilesystemProvider.putCommit_ok hfolder
  have hhash : c.F.contentHash bytes = commit.1.id := (Cas.put_cases hput).1
  rw [hresult]
  refine ⟨rfl, _, projectFor_self _ _ _ _, ⟨h.head, h.floor, ?_, h.blobs⟩, ?_⟩
  · intro e he
    have hlisted : c.F.hashText commit.1.id ∈
        insertKey (c.F.hashText commit.1.id) project.commits := mem_insertKey.mpr (Or.inl rfl)
    have hstored : get? (s.withCommit (c.F.hashText commit.1.id)
        (canonicalValue c.F commit.1)).db.commits (c.F.hashText commit.1.id) =
          some (canonicalValue c.F commit.1) := by
      rw [State.withCommit, get?_insert, if_pos rfl]
    rcases plain_put hframe hput he with he | ⟨hid, hplain⟩
    · obtain ⟨old, hheld⟩ := h.commits e he
      by_cases hsame : c.F.hashText old.id = c.F.hashText commit.1.id
      · have hid := hashText_inj hC hsame
        obtain ⟨text, hplain, hold⟩ := hheld.text
        have hbytes : text = bytes := by
          apply hC.hash_injective
          rw [hhash, ← hid, hheld.id]
          exact Cas.plain_hash hplain
        rw [hbytes] at hold
        have heq := eq_of_text hC hheld.typed commit.2 hheld.exact hexact hold htext hid
        exact ⟨commit.1, commit.2, hexact, heq ▸ hheld.id, heq ▸ hheld.text, hlisted, hstored⟩
      · refine ⟨old, hheld.typed, hheld.exact, hheld.id, hheld.text,
          mem_insertKey.mpr (Or.inr hheld.listed), ?_⟩
        change get? (SortedAssoc.insert _ _ s.db.commits) _ = _
        rw [get?_insert, if_neg hsame, hheld.stored]
    · exact ⟨commit.1, commit.2, hexact, hid.symm, ⟨bytes, hplain, htext⟩, hlisted, hstored⟩
  · intro hall _
    refine ⟨fun text htext => ?_, hall.blobs⟩
    rcases mem_insertKey.mp htext with rfl | htext
    · exact ⟨commit.1.id, rfl, Cas.has_put_self hput⟩
    · obtain ⟨other, hother, hhas⟩ := hall.commits text htext
      exact ⟨other, hother, Cas.has_put hput hhas⟩

theorem Tracks.advanceHead (hC : CanonicalJson c.F c.jcs fun text => (c.parseHash text).toOption)
    (h : Tracks c s project p) (found : projectFor s.db owner handle = some project)
    {fromHead : Option Hash} {toHead : Hash} {result : HeadAdvance Hash}
    (haccepted : (postHead faults owner handle (fromHead.map c.F.hashText) (c.F.hashText toHead)
      s).2.accepted = true)
    (hfolder : p.advanceHead (formats c.F c.jcs c.parseHash) {} fromHead toHead =
      .ok (p', result)) :
    Corresponds c.F
        (postHead faults owner handle (fromHead.map c.F.hashText) (c.F.hashText toHead) s).2
        (.advance result) ∧
      Follows c owner handle project p
        (postHead faults owner handle (fromHead.map c.F.hashText) (c.F.hashText toHead) s).1 p'
        (.advance result) := by
  obtain ⟨id, hserver, hcontrol⟩ := h.head
  obtain ⟨_, found', hcases⟩ := postHead_accepted haccepted
  rw [found] at found'
  cases found'
  rw [hserver] at hcases
  rcases advanceHead_cases hcontrol hfolder with ⟨hne, rfl, rfl⟩ | ⟨rfl, rfl, rfl⟩
  · rcases hcases with ⟨-, heq⟩ | ⟨hsame, -⟩
    · rw [heq]
      exact ⟨rfl, project, found, h, fun hall _ => hall⟩
    · exact absurd ((map_hashText_iff hC).mp hsame) hne
  · rcases hcases with ⟨hne, -⟩ | ⟨-, -, updatedAt, heq⟩
    · exact absurd rfl hne
    · rw [heq]
      refine ⟨trivial, _, projectFor_self _ _ _ _, ⟨⟨some toHead, rfl, rfl⟩, h.floor, ?_, h.blobs⟩,
        fun hall _ => ⟨hall.commits, hall.blobs⟩⟩
      intro e he
      obtain ⟨commit, hheld⟩ := h.commits e he
      exact ⟨commit, hheld.same rfl rfl⟩

theorem Tracks.listHistory (hC : CanonicalJson c.F c.jcs fun text => (c.parseHash text).toOption)
    (h : Tracks c s project p) (found : projectFor s.db owner handle = some project)
    {range : HistoryRange Hash} {commits : List (CommitSummary Hash)}
    (haccepted : (getHistory owner handle range.limit (range.before.map c.F.hashText)
      s).accepted = true)
    (hfolder : p.listHistory (formats c.F c.jcs c.parseHash) {} range = .ok commits) :
    Corresponds c.F (getHistory owner handle range.limit (range.before.map c.F.hashText) s)
      (.history commits) := by
  obtain ⟨head, hhead, hcontrol⟩ := h.head
  obtain ⟨floor, hfloor, hboundary⟩ := h.floor
  simp only [FilesystemProvider.listHistory, bind_ok_iff, readHead_control hcontrol,
    readFloor_control hboundary] at hfolder
  obtain ⟨_, _, _, hsome, _, hhead', hfolder⟩ := hfolder
  cases hsome
  cases hhead'
  unfold getHistory at haccepted ⊢
  rw [found] at haccepted ⊢
  simp only [Option.isNone_map] at haccepted ⊢
  cases hloop : historyLoop s.db.commits project (range.limit.getD 100)
      (range.before.map c.F.hashText) (project.commits.length + 1) project.head
      range.before.isNone [] with
  | none =>
    rw [hloop] at haccepted
    cases haccepted
  | some values =>
    rw [hhead] at hloop
    exact h.sameHistory hC hfloor rfl hloop hfolder

theorem Tracks.retention (hC : CanonicalJson c.F c.jcs fun text => (c.parseHash text).toOption)
    (h : Tracks c s project p) (found : projectFor s.db owner handle = some project)
    {rule : RetentionRule} {roots : RetentionRoots Hash} {report : RetentionReport}
    (haccepted : (postRetention faults owner handle rule s).2.accepted = true)
    (hfolder : (p.pruneHistory (formats c.F c.jcs c.parseHash) {} rule roots now).result =
      .ok report) :
    Corresponds c.F (postRetention faults owner handle rule s).2 (.retention report) ∧
      Follows c owner handle project p (postRetention faults owner handle rule s).1
        (p.pruneHistory (formats c.F c.jcs c.parseHash) {} rule roots now).provider
        (.retention report) := by
  obtain ⟨head, hhead, hcontrol⟩ := h.head
  obtain ⟨floor, hfloor, hboundary⟩ := h.floor
  obtain ⟨_, history, found', hvisible, hcases⟩ := postRetention_accepted haccepted
  rw [found] at found'
  cases found'
  rw [hhead] at hvisible
  let version (commit : Commit Hash) : String × Int := (c.F.hashText commit.id, commit.timestamp)
  have hsame : ∀ {commits : List (Commit Hash)},
      p.visibleCommits (formats c.F c.jcs c.parseHash) {} = .ok commits →
        history = commits.map version := by
    intro commits hcommits
    obtain ⟨floor', head', hfloor', hhead', hwalk⟩ :=
      FilesystemProvider.visibleCommits_ok_iff.mp hcommits
    rw [readFloor_control hboundary] at hfloor'
    rw [readHead_control hcontrol] at hhead'
    cases hfloor'
    cases hhead'
    exact h.sameVisible hC hfloor (FilesystemProvider.firstParents_ok_iff.mp hwalk) hvisible
  have hversions : ∀ commits : List (Commit Hash), newFloor rule Prod.snd (commits.map version) =
      (newFloor rule Commit.timestamp commits).map version :=
    fun commits => newFloor_map rule Prod.snd version commits
  unfold FilesystemProvider.pruneHistory at hfolder ⊢
  rcases FilesystemProvider.pruneHistoryWithGrace_cases (formats c.F c.jcs c.parseHash) {} rule roots
    now retentionGcGraceSecs p with ⟨e, heq⟩ | ⟨hplan, heq⟩ | ⟨plan, hplan, heq⟩
  · rw [heq] at hfolder
    cases hfolder
  · obtain ⟨commits, hcommits, hnone⟩ := planRetention_newFloor hplan
    rw [hsame hcommits, hversions] at hcases
    cases hfloor' : newFloor rule Commit.timestamp commits with
    | some last =>
      rw [hfloor'] at hnone
      obtain ⟨_, hsome, _⟩ := hnone
      cases hsome
    | none =>
      rw [hfloor'] at hcases
      rcases hcases with ⟨-, hresult⟩ | ⟨_, hsome, _⟩
      · rw [heq] at hfolder ⊢
        cases hfolder
        rw [hresult]
        exact ⟨rfl, project, found, h, fun hall _ => hall⟩
      · cases hsome
  · obtain ⟨commits, hcommits, hsome⟩ := planRetention_newFloor hplan
    rw [hsame hcommits, hversions, List.map_map, List.length_map] at hcases
    cases hfloor' : newFloor rule Commit.timestamp commits with
    | none =>
      rw [hfloor'] at hsome
      cases hsome
    | some last =>
      rw [hfloor'] at hsome hcases
      obtain ⟨_, hplanned, hlast, hremoved⟩ := hsome
      cases hplanned
      rcases hcases with ⟨hnone, _⟩ | ⟨_, hboundary', hresult⟩
      · cases hnone
      · cases hboundary'
        rw [heq] at hfolder ⊢
        rw [hresult]
        refine ⟨?_, _, projectFor_self _ _ _ _, ⟨?_, ?_, ?_, ?_⟩, ?_⟩
        · change _ = report.versionsRemoved
          rw [FilesystemProvider.sweep_versionsRemoved hfolder, hremoved]
          rfl
        · exact ⟨head, hhead, (FilesystemProvider.swept_head_floor _ _ _ _ _ _).1.trans hcontrol⟩
        · refine ⟨some last.id, rfl, ?_⟩
          rw [(FilesystemProvider.swept_head_floor _ _ _ _ _ _).2, hlast]
          rfl
        · intro e he
          obtain ⟨commit, hheld⟩ := h.commits e (mem_swept.2 e he)
          exact ⟨commit, hheld.same rfl rfl⟩
        · exact fun e he => h.blobs e (mem_swept.1 e he)
        · intro hall hspares
          obtain ⟨hblobs, hkept⟩ := swept_spares hfolder (hspares report rfl)
          exact ⟨by rw [hkept]; exact hall.commits, by rw [hblobs]; exact hall.blobs⟩

end Steps

end Server

end AuruPm
