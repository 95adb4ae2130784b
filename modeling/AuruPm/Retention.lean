import AuruPm.Filesystem

/-!
# What a retention pass keeps

A pass marks everything reachable from the retained versions and the protected commits, not
past the floor, writes the floor, and sweeps both stores. So what was marked is read as
before, and the visible history is the retained part of the old one.
-/

namespace AuruPm

set_option autoImplicit false

open SortedAssoc

namespace FilesystemProvider

variable {Bytes Hash : Type} [DecidableEq Hash] {F : Formats Bytes Hash} {io : Faults Hash}
variable {p : FilesystemProvider Bytes Hash}

/-! Reading one commit. -/

theorem readCommit_ok_iff {id : Hash} {commit : Commit Hash} :
    p.readCommit F io id = .ok commit ↔
      ∃ bytes d, p.commits.get F io.commits id = .ok bytes ∧ F.decodeCommit bytes = .ok d ∧
        commit = { d with id := id } := by
  unfold readCommit
  simp only [bind_ok_iff, ofSerde_ok_iff, pure, Except.pure, Except.ok.injEq]
  constructor
  · rintro ⟨bytes, hb, d, hd, rfl⟩
    exact ⟨bytes, d, hb, hd, rfl⟩
  · rintro ⟨bytes, d, hb, hd, rfl⟩
    exact ⟨bytes, hb, d, hd, rfl⟩

theorem readCommit_id (id : Hash) (commit : Commit Hash) (h : p.readCommit F io id = .ok commit) :
    commit.id = id := by
  obtain ⟨_, _, _, _, rfl⟩ := readCommit_ok_iff.mp h
  rfl

theorem readCommit_stored (id : Hash) (commit : Commit Hash)
    (h : p.readCommit F io id = .ok commit) : id ∈ p.commits.map Prod.fst := by
  obtain ⟨_, _, hb, _, _⟩ := readCommit_ok_iff.mp h
  obtain ⟨file, hf, _, _⟩ := Cas.get_ok_iff.mp hb
  exact List.mem_map.mpr ⟨(id, file), mem_of_get? hf, rfl⟩

/-- A file read despite possible faults is read the same without them. -/
theorem get_healthy {cas : Cas Bytes Hash} {faults : CasFaults Hash} {hash : Hash} {bytes : Bytes}
    (h : cas.get F faults hash = .ok bytes) : cas.get F {} hash = .ok bytes := by
  obtain ⟨file, hf, _, hp⟩ := Cas.get_ok_iff.mp h
  exact Cas.get_ok_iff.mpr ⟨file, hf, rfl, hp⟩

theorem readCommit_healthy {id : Hash} {commit : Commit Hash}
    (h : p.readCommit F io id = .ok commit) : p.readCommit F {} id = .ok commit := by
  obtain ⟨bytes, d, hb, hd, rfl⟩ := readCommit_ok_iff.mp h
  exact readCommit_ok_iff.mpr ⟨bytes, d, get_healthy hb, hd, rfl⟩

theorem readCommit_congr {q : FilesystemProvider Bytes Hash} {id : Hash}
    (h : get? q.commits id = get? p.commits id) : q.readCommit F io id = p.readCommit F io id := by
  simp only [readCommit, Cas.get, h]

theorem readManifest_ok_iff {commit : Commit Hash} {manifest : SampleManifest Hash} :
    p.readManifest F io commit = .ok manifest ↔
      ∃ bytes, p.blobs.get F io.blobs commit.tree.samples = .ok bytes ∧
        F.decodeManifest bytes = .ok manifest := by
  simp only [readManifest, bind_ok_iff, ofSerde_ok_iff]

theorem readManifest_healthy {commit : Commit Hash} {manifest : SampleManifest Hash}
    (h : p.readManifest F io commit = .ok manifest) :
    p.readManifest F {} commit = .ok manifest := by
  obtain ⟨bytes, hb, hd⟩ := readManifest_ok_iff.mp h
  exact readManifest_ok_iff.mpr ⟨bytes, get_healthy hb, hd⟩

/-! The walk over first parents. -/

/-- The commits that the walk reads from this commit down to the floor. -/
abbrev History (F : Formats Bytes Hash) (p : FilesystemProvider Bytes Hash) (floor : Option Hash) :
    Option Hash → List (Commit Hash) → Prop :=
  Walk.Chain (p.readCommit F {}) (fun commit => commit.parents.head?)
    (fun id => decide (some id = floor))

theorem firstParents_ok_iff {floor start : Option Hash} {commits : List (Commit Hash)} :
    p.firstParents F {} floor start = .ok commits ↔ p.History F floor start commits := by
  constructor
  · exact fun h => (Walk.walk_ok_iff.mp h).1
  · intro h
    have := Walk.walk_eq_of_chain Error.endless readCommit_id readCommit_stored h
    simpa [firstParents] using this

theorem firstParents_healthy {floor start : Option Hash} {commits : List (Commit Hash)}
    (h : p.firstParents F io floor start = .ok commits) : p.History F floor start commits :=
  (Walk.walk_ok_iff.mp h).1.congr (fun _ _ hr _ => readCommit_healthy hr) fun _ _ _ _ => rfl

theorem visibleCommits_ok_iff {commits : List (Commit Hash)} :
    p.visibleCommits F io = .ok commits ↔ ∃ floor head, p.readHistoryFloor io = .ok floor ∧
      p.readHead io = .ok head ∧ p.firstParents F io floor head = .ok commits := by
  simp only [visibleCommits, bind_ok_iff, exists_and_left]

omit [DecidableEq Hash] in
theorem readHead_healthy {head : Option Hash} (h : p.readHead io = .ok head) :
    p.readHead {} = .ok head := by
  obtain ⟨_, h⟩ := orFail_ok_iff.mp h
  exact orFail_ok_iff.mpr ⟨rfl, h⟩

omit [DecidableEq Hash] in
theorem readHistoryFloor_healthy {floor : Option Hash} (h : p.readHistoryFloor io = .ok floor) :
    p.readHistoryFloor {} = .ok floor := by
  obtain ⟨_, h⟩ := orFail_ok_iff.mp h
  exact orFail_ok_iff.mpr ⟨rfl, h⟩

theorem visibleCommits_healthy {commits : List (Commit Hash)}
    (h : p.visibleCommits F io = .ok commits) : p.visibleCommits F {} = .ok commits := by
  obtain ⟨floor, head, hf, hh, hw⟩ := visibleCommits_ok_iff.mp h
  exact visibleCommits_ok_iff.mpr ⟨floor, head, readHistoryFloor_healthy hf, readHead_healthy hh,
    firstParents_ok_iff.mpr (firstParents_healthy hw)⟩

/-! What a pass decides. -/

theorem rposition_lt {α : Type} {q : α → Bool} {xs : List α} {i : Nat}
    (h : rposition q xs = some i) : i < xs.length := by
  induction xs generalizing i with
  | nil => cases h
  | cons x xs ih =>
    simp only [rposition] at h
    split at h
    · rename_i j hj
      cases h
      simpa using ih hj
    · split at h
      · cases h
        simp
      · cases h

theorem retainedPrefixLen_le (rule : RetentionRule) (timestamps : List Int) :
    rule.retainedPrefixLen timestamps ≤ timestamps.length := by
  unfold RetentionRule.retainedPrefixLen
  cases timestamps with
  | nil => simp
  | cons t ts =>
    cases rule with
    | latest count => simp
    | since timestamp =>
      simp only [List.isEmpty_cons, Bool.false_eq_true, if_false]
      split
      · rename_i i hi
        exact rposition_lt hi
      · simp

theorem retainedPrefixLen_pos (rule : RetentionRule) (timestamp : Int) (timestamps : List Int) :
    0 < rule.retainedPrefixLen (timestamp :: timestamps) := by
  cases rule with
  | latest count =>
    simp only [RetentionRule.retainedPrefixLen, List.isEmpty_cons, Bool.false_eq_true, if_false,
      List.length_cons]
    omega
  | since since =>
    simp only [RetentionRule.retainedPrefixLen, List.isEmpty_cons, Bool.false_eq_true, if_false]
    split <;> omega

/-- The visible versions that a rule keeps, newest first. -/
def retainedPrefix (rule : RetentionRule) (history : List (Commit Hash)) : List (Commit Hash) :=
  history.take (rule.retainedPrefixLen (history.map Commit.timestamp))

/-- The oldest version that a rule keeps. -/
def floorOf (rule : RetentionRule) (history : List (Commit Hash)) : Option Hash :=
  (retainedPrefix rule history).getLast?.map Commit.id

omit [DecidableEq Hash] in
theorem last_retained {rule : RetentionRule} {history : List (Commit Hash)} :
    (if rule.retainedPrefixLen (history.map Commit.timestamp) = 0 then none
      else history[rule.retainedPrefixLen (history.map Commit.timestamp) - 1]?) =
      (retainedPrefix rule history).getLast? := by
  have hle := retainedPrefixLen_le rule (history.map Commit.timestamp)
  rw [List.length_map] at hle
  unfold retainedPrefix
  generalize rule.retainedPrefixLen (history.map Commit.timestamp) = n at hle
  by_cases hn : n = 0
  · simp [hn]
  · rw [if_neg hn, List.getLast?_eq_getElem?, List.length_take, Nat.min_eq_left hle,
      List.getElem?_take_of_lt (by omega)]

theorem planRetention_ok_iff {rule : RetentionRule} {roots : RetentionRoots Hash}
    {plan : Option (Plan Hash)} :
    p.planRetention F io rule roots = .ok plan ↔ io.lock = none ∧
      ∃ history, p.visibleCommits F io = .ok history ∧
        match (retainedPrefix rule history).getLast? with
        | none => plan = none
        | some last => ∃ graph blobs,
            p.retentionGraph F io (retainedPrefix rule history) last.id roots = .ok graph ∧
            p.reachableBlobs F io graph roots = .ok blobs ∧
            plan = some ⟨last.id, history.length - (retainedPrefix rule history).length,
              retainedPrefix rule history, graph, blobs⟩ := by
  unfold planRetention
  simp only [bind_ok_iff, orFail_ok_iff, and_true, exists_const, last_retained]
  refine and_congr_right fun _ => exists_congr fun history => and_congr_right fun _ => ?_
  have hle := retainedPrefixLen_le rule (history.map Commit.timestamp)
  rw [List.length_map] at hle
  have hlen : (retainedPrefix rule history).length =
      rule.retainedPrefixLen (history.map Commit.timestamp) := by
    rw [retainedPrefix, List.length_take, Nat.min_eq_left hle]
  rw [hlen]
  cases (retainedPrefix rule history).getLast? with
  | none => simp [pure, Except.pure, eq_comm]
  | some last =>
    simp only [bind_ok_iff, pure, Except.pure, Except.ok.injEq]
    constructor
    · rintro ⟨graph, hg, blobs, hb, rfl⟩
      exact ⟨graph, blobs, hg, hb, rfl⟩
    · rintro ⟨graph, blobs, hg, hb, rfl⟩
      exact ⟨graph, hg, blobs, hb, rfl⟩

/-! What a pass marks. -/

/-- Parents are followed from every commit but the floor. -/
def parentsToFloor (floor : Option Hash) (id : Hash) (commit : Commit Hash) : List Hash :=
  if some id = floor then [] else commit.parents

/-- A commit that the pass has promised to keep: a retained version, a protected commit, or an
ancestor of one of them that is reached without passing the floor. -/
def KeepsCommit (F : Formats Bytes Hash) (rule : RetentionRule) (roots : RetentionRoots Hash)
    (p : FilesystemProvider Bytes Hash) (history : List (Commit Hash)) : Hash → Prop :=
  Worklist.Marked (p.readCommit F {}) (parentsToFloor (floorOf rule history))
    ((retainedPrefix rule history).map Commit.id ++ roots.commits)

/-- A blob that the pass has promised to keep: a protected one, or one that a kept commit names,
itself or in its manifest. -/
inductive KeepsBlob (F : Formats Bytes Hash) (rule : RetentionRule) (roots : RetentionRoots Hash)
    (p : FilesystemProvider Bytes Hash) (history : List (Commit Hash)) : Hash → Prop
  | root {hash : Hash} (h : hash ∈ roots.blobs) : KeepsBlob F rule roots p history hash
  | snapshot {commit : Commit Hash} (h : KeepsCommit F rule roots p history commit.id)
      (hr : p.readCommit F {} commit.id = .ok commit) :
      KeepsBlob F rule roots p history commit.tree.snapshot
  | samples {commit : Commit Hash} (h : KeepsCommit F rule roots p history commit.id)
      (hr : p.readCommit F {} commit.id = .ok commit) :
      KeepsBlob F rule roots p history commit.tree.samples
  | metadata {commit : Commit Hash} {hash : Hash} (h : KeepsCommit F rule roots p history commit.id)
      (hr : p.readCommit F {} commit.id = .ok commit) (hm : commit.metadata = some hash) :
      KeepsBlob F rule roots p history hash
  | entry {commit : Commit Hash} {manifest : SampleManifest Hash} {entry : SampleEntry Hash}
      (h : KeepsCommit F rule roots p history commit.id)
      (hr : p.readCommit F {} commit.id = .ok commit)
      (hm : p.readManifest F {} commit = .ok manifest) (he : entry ∈ manifest.entries) :
      KeepsBlob F rule roots p history entry.hash

theorem reachableFrom_ok {commits : List (Commit Hash)} {hashes : List Hash}
    (h : p.reachableFrom F io commits = .ok hashes) {commit : Commit Hash} (hc : commit ∈ commits) :
    ∃ manifest, p.readManifest F io commit = .ok manifest ∧
      ∀ hash ∈ commitBlobs commit manifest, hash ∈ hashes := by
  induction commits generalizing hashes with
  | nil => cases hc
  | cons first commits ih =>
    simp only [reachableFrom, bind_ok_iff, pure, Except.pure, Except.ok.injEq] at h
    obtain ⟨manifest, hm, rest, hrest, rfl⟩ := h
    rcases List.mem_cons.mp hc with rfl | hc
    · exact ⟨manifest, hm, fun hash hh => List.mem_append_left _ hh⟩
    · obtain ⟨manifest', hm', hall⟩ := ih hrest hc
      exact ⟨manifest', hm', fun hash hh => List.mem_append_right _ (hall hash hh)⟩

theorem graphCommit_eq {retained : List (Commit Hash)}
    (h : ∀ commit ∈ retained, p.readCommit F io commit.id = .ok commit) :
    p.graphCommit F io retained = p.readCommit F io := by
  funext id
  unfold graphCommit
  split
  · rename_i commit hfind
    have hid := List.find?_some hfind
    simp only [decide_eq_true_eq] at hid
    rw [← hid]
    exact (h commit (List.mem_of_find?_eq_some hfind)).symm
  · rfl

theorem read_of_firstParents {floor start : Option Hash} {history : List (Commit Hash)}
    (h : p.firstParents F io floor start = .ok history) :
    ∀ commit ∈ history, p.readCommit F io commit.id = .ok commit := by
  intro commit hc
  obtain ⟨id, hr⟩ := (Walk.walk_ok_iff.mp h).1.read_mem hc
  rw [readCommit_id id commit hr]
  exact hr

/-- Every commit that the pass promised to keep was read into the graph. -/
theorem mem_graph {retained : List (Commit Hash)} {floor : Hash} {roots : RetentionRoots Hash}
    {graph : List (Commit Hash)}
    (hread : ∀ commit ∈ retained, p.readCommit F io commit.id = .ok commit)
    (hg : p.retentionGraph F io retained floor roots = .ok graph) {id : Hash}
    (hm : Worklist.Marked (p.readCommit F {}) (graphParents floor)
      (retained.map Commit.id ++ roots.commits) id) :
    ∃ commit ∈ graph, commit.id = id ∧ p.readCommit F io id = .ok commit := by
  simp only [retentionGraph, graphCommit_eq hread] at hg
  have hroots : Worklist.Marked (p.readCommit F {}) (graphParents floor)
      (graphRoots retained roots) id :=
    hm.mono fun _ hk => List.mem_reverse.mpr hk
  exact Worklist.read_of_collect readCommit_id hg
    (hroots.of_collect readCommit_id (fun _ _ => readCommit_healthy) hg)

/-- Every commit of the graph is one that the pass promised to keep. -/
theorem marked_of_graph {retained : List (Commit Hash)} {floor : Hash} {roots : RetentionRoots Hash}
    {graph : List (Commit Hash)}
    (hread : ∀ commit ∈ retained, p.readCommit F io commit.id = .ok commit)
    (hg : p.retentionGraph F io retained floor roots = .ok graph) {commit : Commit Hash}
    (hc : commit ∈ graph) : Worklist.Marked (p.readCommit F {}) (graphParents floor)
      (retained.map Commit.id ++ roots.commits) commit.id := by
  simp only [retentionGraph, graphCommit_eq hread] at hg
  obtain ⟨hm, -⟩ := (Worklist.mem_collect_iff readCommit_id hg commit).mp hc
  exact (hm.of_read fun _ _ => readCommit_healthy).mono fun _ hk => List.mem_reverse.mp hk

omit [DecidableEq Hash] in
theorem floorOf_some {rule : RetentionRule} {history : List (Commit Hash)} {last : Commit Hash}
    (h : (retainedPrefix rule history).getLast? = some last) : floorOf rule history = some last.id := by
  simp [floorOf, h]

theorem parentsToFloor_some (floor : Hash) : parentsToFloor (some floor) = graphParents floor := by
  funext id commit
  simp [parentsToFloor, graphParents]

/-- The provider after the floor of a plan is written and the stores are swept. -/
theorem sweep_head_floor (now grace : Nat) (plan : Plan Hash) (q : FilesystemProvider Bytes Hash) :
    (sweep F io now grace plan q).1.head = q.head ∧ (sweep F io now grace plan q).1.floor = q.floor := by
  unfold sweep
  split
  split <;> exact ⟨rfl, rfl⟩

theorem get?_sweep_blobs (now grace : Nat) (plan : Plan Hash) (q : FilesystemProvider Bytes Hash)
    {hash : Hash} (h : ∀ file, (hash, file) ∈ q.blobs →
      hash ∈ plan.blobs ∨ ¬ Cas.Stale io.blobs now grace hash file) :
    get? (sweep F io now grace plan q).1.blobs hash = get? q.blobs hash := by
  have hgc := Cas.get?_gc (F := F) q.blobs noGc h
  unfold sweep
  split
  rename_i blobs result heq
  rw [heq] at hgc
  split <;> exact hgc

theorem get?_sweep_commits (now grace : Nat) (plan : Plan Hash)
    (q : FilesystemProvider Bytes Hash) {id : Hash} (h : ∀ file, (id, file) ∈ q.commits →
      id ∈ plan.graph.map Commit.id ∨ ¬ Cas.Stale io.commits now grace id file) :
    get? (sweep F io now grace plan q).1.commits id = get? q.commits id := by
  have hgc := Cas.get?_gc (F := F) q.commits noGc h
  unfold sweep
  split
  split
  · rfl
  · exact hgc

/-! A second pass with the same rule. -/

theorem rposition_take {α : Type} {q : α → Bool} {xs : List α} {i : Nat}
    (h : rposition q xs = some i) : rposition q (xs.take (i + 1)) = some i := by
  induction xs generalizing i with
  | nil => cases h
  | cons x xs ih =>
    simp only [rposition] at h
    split at h
    · rename_i j hj
      cases h
      simp [rposition, ih hj]
    · split at h
      · rename_i hx
        cases h
        simp [rposition, hx]
      · cases h

theorem rposition_head {α : Type} {q : α → Bool} {x : α} {xs : List α}
    (h : rposition q (x :: xs) = none) : rposition q [x] = none := by
  simp only [rposition] at h ⊢
  split at h
  · cases h
  · exact h

theorem retainedPrefixLen_take (rule : RetentionRule) (timestamps : List Int) :
    rule.retainedPrefixLen (timestamps.take (rule.retainedPrefixLen timestamps)) =
      rule.retainedPrefixLen timestamps := by
  cases timestamps with
  | nil => simp
  | cons t ts =>
    cases rule with
    | latest count =>
      have hne : ((t :: ts).take (min (max count 1) (t :: ts).length)).isEmpty = false := by
        simp [List.isEmpty_eq_false_iff, List.take_eq_nil_iff]
      simp only [RetentionRule.retainedPrefixLen, List.isEmpty_cons, Bool.false_eq_true, if_false,
        hne, List.length_take]
      omega
    | since timestamp =>
      simp only [RetentionRule.retainedPrefixLen, List.isEmpty_cons, Bool.false_eq_true, if_false]
      cases hr : rposition (fun candidate => decide (timestamp ≤ candidate)) (t :: ts) with
      | some i =>
        have htake := rposition_take hr
        simp only [List.take_succ_cons, List.isEmpty_cons, Bool.false_eq_true, if_false] at htake ⊢
        rw [htake]
      | none =>
        have hhead := rposition_head hr
        simp only [List.take_succ_cons, List.take_zero, List.isEmpty_cons, Bool.false_eq_true,
          if_false, hhead]

omit [DecidableEq Hash] in
theorem retainedPrefix_idem (rule : RetentionRule) (history : List (Commit Hash)) :
    retainedPrefix rule (retainedPrefix rule history) = retainedPrefix rule history := by
  have hlen := retainedPrefixLen_take rule (history.map Commit.timestamp)
  rw [← List.map_take] at hlen
  rw [retainedPrefix, retainedPrefix, hlen, List.take_take, Nat.min_self]

/-! The promise. -/

section Plan
variable {rule : RetentionRule} {roots : RetentionRoots Hash} {plan : Plan Hash}

/-- What a plan that was made says about the provider it was made for. -/
structure PlanFor (F : Formats Bytes Hash) (rule : RetentionRule) (roots : RetentionRoots Hash)
    (p : FilesystemProvider Bytes Hash) (history : List (Commit Hash)) (plan : Plan Hash) :
    Prop where
  visible : p.visibleCommits F {} = .ok history
  last : ∃ commit, (retainedPrefix rule history).getLast? = some commit ∧ plan.floor = commit.id
  removed : plan.versionsRemoved = history.length - (retainedPrefix rule history).length
  commits : ∀ id, KeepsCommit F rule roots p history id ↔ id ∈ plan.graph.map Commit.id
  blobs : ∀ hash, KeepsBlob F rule roots p history hash → hash ∈ plan.blobs

theorem planFor_of_ok (h : p.planRetention F io rule roots = .ok (some plan)) :
    ∃ history, PlanFor F rule roots p history plan := by
  obtain ⟨-, history, hv, h⟩ := planRetention_ok_iff.mp h
  cases hlast : (retainedPrefix rule history).getLast? with
  | none =>
    rw [hlast] at h
    cases h
  | some last =>
    rw [hlast] at h
    obtain ⟨graph, blobs, hg, hb, hplan⟩ := h
    cases hplan
    obtain ⟨floor, head, _, _, hw⟩ := visibleCommits_ok_iff.mp hv
    have hread : ∀ commit ∈ retainedPrefix rule history,
        p.readCommit F io commit.id = .ok commit :=
      fun commit hc => read_of_firstParents hw commit (List.mem_of_mem_take hc)
    have hgraph : ∀ id, KeepsCommit F rule roots p history id →
        ∃ commit ∈ graph, commit.id = id ∧ p.readCommit F io id = .ok commit := by
      intro id hid
      rw [KeepsCommit, floorOf_some hlast, parentsToFloor_some] at hid
      exact mem_graph hread hg hid
    have hblobs : ∀ commit, KeepsCommit F rule roots p history commit.id →
        p.readCommit F {} commit.id = .ok commit → ∃ manifest,
          p.readManifest F {} commit = .ok manifest ∧
            ∀ hash ∈ commitBlobs commit manifest, hash ∈ blobs := by
      intro commit hc hr
      obtain ⟨found, hf, hid, hfr⟩ := hgraph commit.id hc
      rw [readCommit_healthy hfr] at hr
      cases hr
      unfold reachableBlobs at hb
      simp only [bind_ok_iff, pure, Except.pure, Except.ok.injEq] at hb
      obtain ⟨hashes, hh, rfl⟩ := hb
      obtain ⟨manifest, hm, hall⟩ := reachableFrom_ok hh hf
      exact ⟨manifest, readManifest_healthy hm, fun hash hx => List.mem_append_left _ (hall hash hx)⟩
    refine ⟨history, visibleCommits_healthy hv, ⟨last, hlast, rfl⟩, rfl, ?_, ?_⟩
    · intro id
      constructor
      · intro hid
        obtain ⟨commit, hc, rfl, -⟩ := hgraph id hid
        exact List.mem_map_of_mem hc
      · intro hid
        obtain ⟨commit, hc, rfl⟩ := List.mem_map.mp hid
        rw [KeepsCommit, floorOf_some hlast, parentsToFloor_some]
        exact marked_of_graph hread hg hc
    · intro hash hk
      cases hk with
      | root hr =>
        unfold reachableBlobs at hb
        simp only [bind_ok_iff, pure, Except.pure, Except.ok.injEq] at hb
        obtain ⟨hashes, -, rfl⟩ := hb
        exact List.mem_append_right _ hr
      | snapshot hc hr =>
        obtain ⟨manifest, -, hall⟩ := hblobs _ hc hr
        exact hall _ (by simp [commitBlobs])
      | samples hc hr =>
        obtain ⟨manifest, -, hall⟩ := hblobs _ hc hr
        exact hall _ (by simp [commitBlobs])
      | metadata hc hr hm =>
        obtain ⟨manifest, -, hall⟩ := hblobs _ hc hr
        exact hall _ (by simp [commitBlobs, hm])
      | entry hc hr hm he =>
        obtain ⟨manifest, hm', hall⟩ := hblobs _ hc hr
        rw [hm] at hm'
        cases hm'
        exact hall _ (List.mem_append_right _ (List.mem_map_of_mem he))

/-- The provider once the pass has written the floor and deleted what it could. -/
def swept (F : Formats Bytes Hash) (io : Faults Hash) (now grace : Nat) (plan : Plan Hash)
    (p : FilesystemProvider Bytes Hash) : FilesystemProvider Bytes Hash :=
  (sweep F io now grace plan { p with floor := .names plan.floor }).1

/-- The answer of that pass. -/
def sweptResult (F : Formats Bytes Hash) (io : Faults Hash) (now grace : Nat) (plan : Plan Hash)
    (p : FilesystemProvider Bytes Hash) : Except Error RetentionReport :=
  (sweep F io now grace plan { p with floor := .names plan.floor }).2

theorem swept_head_floor (F : Formats Bytes Hash) (io : Faults Hash) (now grace : Nat)
    (plan : Plan Hash) (p : FilesystemProvider Bytes Hash) :
    (swept F io now grace plan p).head = p.head ∧
      (swept F io now grace plan p).floor = .names plan.floor :=
  sweep_head_floor now grace plan _

/-- After a pass that ended well, a commit file is still there for a reason. -/
theorem left_of_swept {now grace : Nat} {report : RetentionReport}
    (h : sweptResult F io now grace plan p = .ok report) {e : Hash × StoredFile Bytes}
    (he : e ∈ (swept F io now grace plan p).commits) : e ∈ p.commits ∧
      (e.1 ∈ plan.graph.map Commit.id ∨ ¬ Cas.Stale io.commits now grace e.1 e.2) := by
  unfold sweptResult at h
  unfold swept at he
  unfold sweep at h he
  split at h
  rename_i blobs result heq
  simp only [heq] at h he
  cases result with
  | error e => cases h
  | ok blobReport =>
    simp only at h he
    obtain ⟨commitReport, hc, -⟩ := map_ok_iff.mp h
    exact ⟨Cas.mem_of_mem_gc he, Cas.left_of_gc hc he⟩

theorem get_congr {cas cas' : Cas Bytes Hash} {faults : CasFaults Hash} {hash : Hash}
    (h : get? cas' hash = get? cas hash) : cas'.get F faults hash = cas.get F faults hash := by
  simp only [Cas.get, h]

theorem retained_kept {history : List (Commit Hash)} {commit : Commit Hash}
    (h : commit ∈ retainedPrefix rule history) : KeepsCommit F rule roots p history commit.id :=
  .root (List.mem_append_left _ (List.mem_map_of_mem h))

theorem visible_swept {history : List (Commit Hash)} (h : PlanFor F rule roots p history plan)
    (now grace : Nat) :
    (swept F io now grace plan p).visibleCommits F {} = .ok (retainedPrefix rule history) := by
  obtain ⟨last, hlast, hfloor⟩ := h.last
  obtain ⟨floor, head, _, hhead, hw⟩ := visibleCommits_ok_iff.mp h.visible
  obtain ⟨hsh, hsf⟩ := swept_head_floor F io now grace plan p
  have hchain := firstParents_ok_iff.mp hw
  have hsplit : retainedPrefix rule history = (retainedPrefix rule history).dropLast ++ [last] :=
    (List.dropLast_append_getLast? last hlast).symm
  have hhistory : history = (retainedPrefix rule history).dropLast ++ last ::
      history.drop (rule.retainedPrefixLen (history.map Commit.timestamp)) := by
    have := List.take_append_drop (rule.retainedPrefixLen (history.map Commit.timestamp)) history
    rw [← retainedPrefix, hsplit] at this
    simpa using this.symm
  rw [hhistory] at hchain
  have hnodup := hchain.nodup readCommit_id
  have hcut := hchain.cut readCommit_id
    (fun id => decide (some id = some last.id)) (by
      intro w hw
      have hne : w.id ≠ last.id := by
        intro he
        rw [List.map_append, List.map_cons, ← he] at hnodup
        have := (List.nodup_append.mp hnodup).2.2 w.id (List.mem_map_of_mem hw) w.id
          List.mem_cons_self
        exact this rfl
      simp [hne]) (by simp)
  rw [← hsplit] at hcut
  have hafter : (swept F io now grace plan p).History F (some last.id) head
      (retainedPrefix rule history) := by
    refine hcut.congr (fun id commit hr hc => ?_) fun _ _ _ _ => rfl
    rw [← hr]
    refine readCommit_congr (get?_sweep_commits now grace plan _ fun _ _ => Or.inl ?_)
    rw [← readCommit_id id commit hr]
    exact (h.commits _).mp (retained_kept hc)
  refine visibleCommits_ok_iff.mpr ⟨some last.id, head, ?_, ?_, firstParents_ok_iff.mpr hafter⟩
  · rw [readHistoryFloor, hsf, hfloor]
    rfl
  · rw [readHead, hsh]
    exact hhead

/-- What a pass that ended well leaves: everything it promised to keep, `HEAD`, and a history
that the same rule no longer shortens. -/
structure KeptAsPromised (F : Formats Bytes Hash) (rule : RetentionRule)
    (roots : RetentionRoots Hash) (history : List (Commit Hash))
    (p p' : FilesystemProvider Bytes Hash) : Prop where
  commits : ∀ id bytes, KeepsCommit F rule roots p history id →
    p.commits.get F {} id = .ok bytes → p'.commits.get F {} id = .ok bytes
  blobs : ∀ hash bytes, KeepsBlob F rule roots p history hash →
    p.blobs.get F {} hash = .ok bytes → p'.blobs.get F {} hash = .ok bytes
  head : p'.head = p.head
  visible : p'.visibleCommits F {} = .ok (retainedPrefix rule history)
  again : ∀ io now grace report,
    (p'.pruneHistoryWithGrace F io rule roots now grace).result = .ok report →
      report.versionsRemoved = 0

/-- Outcome of a retention pass over this provider. -/
structure RetentionPromise (F : Formats Bytes Hash) (rule : RetentionRule)
    (roots : RetentionRoots Hash) (p : FilesystemProvider Bytes Hash)
    (out : Pruned Bytes Hash) : Prop where
  failed : ∀ e, out.result = .error e → out.floorWritten = false → out.provider = p
  kept : ∀ report, out.result = .ok report → ∃ history, p.visibleCommits F {} = .ok history ∧
    KeptAsPromised F rule roots history p out.provider

theorem sweep_versionsRemoved {now grace : Nat} {q : FilesystemProvider Bytes Hash}
    {report : RetentionReport} (h : (sweep F io now grace plan q).2 = .ok report) :
    report.versionsRemoved = plan.versionsRemoved := by
  unfold sweep at h
  split at h
  split at h
  · cases h
  · split at h
    rename_i commits commitResult _
    cases commitResult with
    | error e => cases h
    | ok commitReport =>
      cases h
      rfl

/-- How a pass ends: it failed before the floor, found no version, or wrote the floor. -/
theorem pruneHistoryWithGrace_cases (F : Formats Bytes Hash) (io : Faults Hash)
    (rule : RetentionRule) (roots : RetentionRoots Hash) (now grace : Nat)
    (p : FilesystemProvider Bytes Hash) :
    (∃ e, p.pruneHistoryWithGrace F io rule roots now grace = ⟨p, false, .error e⟩) ∨
    (p.planRetention F io rule roots = .ok none ∧
      p.pruneHistoryWithGrace F io rule roots now grace = ⟨p, false, .ok ⟨0, 0, 0⟩⟩) ∨
    (∃ plan, p.planRetention F io rule roots = .ok (some plan) ∧
      p.pruneHistoryWithGrace F io rule roots now grace =
        ⟨swept F io now grace plan p, true, sweptResult F io now grace plan p⟩) := by
  unfold pruneHistoryWithGrace
  cases hplan : p.planRetention F io rule roots with
  | error e => exact Or.inl ⟨e, rfl⟩
  | ok plan =>
    cases plan with
    | none => exact Or.inr (Or.inl ⟨rfl, rfl⟩)
    | some plan =>
      cases io.writeFloor with
      | some detail => exact Or.inl ⟨.io detail, rfl⟩
      | none => exact Or.inr (Or.inr ⟨plan, rfl, rfl⟩)

/-- A pass removes no version when the rule keeps the whole visible history. -/
theorem versionsRemoved_of_whole {history : List (Commit Hash)} {now grace : Nat}
    {report : RetentionReport} (hv : p.visibleCommits F {} = .ok history)
    (hwhole : retainedPrefix rule history = history)
    (h : (p.pruneHistoryWithGrace F io rule roots now grace).result = .ok report) :
    report.versionsRemoved = 0 := by
  rcases pruneHistoryWithGrace_cases F io rule roots now grace p with
    ⟨e, he⟩ | ⟨-, hnone⟩ | ⟨plan, hplan, hsome⟩
  · rw [he] at h
    cases h
  · rw [hnone] at h
    cases h
    rfl
  · obtain ⟨history', hfor⟩ := planFor_of_ok hplan
    obtain rfl : history' = history := Except.ok.inj (hfor.visible.symm.trans hv)
    rw [hsome] at h
    rw [sweep_versionsRemoved h, hfor.removed, hwhole, Nat.sub_self]

omit [DecidableEq Hash] in
theorem retainedPrefix_nil {history : List (Commit Hash)}
    (h : (retainedPrefix rule history).getLast? = none) : history = [] := by
  rw [List.getLast?_eq_none_iff] at h
  rcases List.take_eq_nil_iff.mp h with hlen | hnil
  · cases history with
    | nil => rfl
    | cons commit history =>
      have hpos := retainedPrefixLen_pos rule commit.timestamp (history.map Commit.timestamp)
      rw [List.map_cons] at hlen
      omega
  · exact hnil

theorem keptAsPromised_swept {history : List (Commit Hash)}
    (h : PlanFor F rule roots p history plan) (now grace : Nat) :
    KeptAsPromised F rule roots history p (swept F io now grace plan p) where
  commits id bytes hk hget := by
    rw [← hget]
    exact get_congr (get?_sweep_commits now grace plan _ fun _ _ => Or.inl ((h.commits id).mp hk))
  blobs hash bytes hk hget := by
    rw [← hget]
    exact get_congr (get?_sweep_blobs now grace plan _ fun _ _ => Or.inl (h.blobs hash hk))
  head := (sweep_head_floor now grace plan _).1
  visible := visible_swept h now grace
  again _ _ _ _ hr :=
    versionsRemoved_of_whole (visible_swept h now grace) (retainedPrefix_idem rule history) hr

theorem keptAsPromised_unchanged (h : p.planRetention F io rule roots = .ok none) :
    p.visibleCommits F {} = .ok [] ∧ KeptAsPromised F rule roots [] p p := by
  obtain ⟨-, history, hv, hnone⟩ := planRetention_ok_iff.mp h
  have hnil : history = [] := by
    cases hlast : (retainedPrefix rule history).getLast? with
    | none => exact retainedPrefix_nil hlast
    | some last =>
      rw [hlast] at hnone
      obtain ⟨_, _, _, _, hplan⟩ := hnone
      cases hplan
  subst hnil
  have hv := visibleCommits_healthy hv
  refine ⟨hv, ⟨fun _ _ _ hget => hget, fun _ _ _ hget => hget, rfl, hv, ?_⟩⟩
  exact fun _ _ _ _ hr => versionsRemoved_of_whole hv rfl hr

/-- A retention pass keeps what it promised, and touches nothing before the floor is written. -/
theorem prune_keeps (F : Formats Bytes Hash) (io : Faults Hash) (rule : RetentionRule)
    (roots : RetentionRoots Hash) (now grace : Nat) (p : FilesystemProvider Bytes Hash) :
    RetentionPromise F rule roots p (p.pruneHistoryWithGrace F io rule roots now grace) := by
  rcases pruneHistoryWithGrace_cases F io rule roots now grace p with
    ⟨e, he⟩ | ⟨hplan, hnone⟩ | ⟨plan, hplan, hsome⟩
  · rw [he]
    exact ⟨fun _ _ _ => rfl, fun report hr => by cases hr⟩
  · rw [hnone]
    exact ⟨fun _ _ _ => rfl, fun _ _ => ⟨[], keptAsPromised_unchanged hplan⟩⟩
  · rw [hsome]
    obtain ⟨history, hfor⟩ := planFor_of_ok hplan
    exact ⟨fun _ _ hw => (Bool.noConfusion hw), fun _ _ =>
      ⟨history, hfor.visible, keptAsPromised_swept hfor now grace⟩⟩

/-! When a pass ends well. -/

theorem reachableFrom_of_readable {commits : List (Commit Hash)}
    (h : ∀ commit ∈ commits, ∃ manifest, p.readManifest F io commit = .ok manifest) :
    ∃ hashes, p.reachableFrom F io commits = .ok hashes := by
  induction commits with
  | nil => exact ⟨[], rfl⟩
  | cons commit commits ih =>
    obtain ⟨manifest, hm⟩ := h commit List.mem_cons_self
    obtain ⟨rest, hrest⟩ := ih fun c hc => h c (List.mem_cons_of_mem _ hc)
    exact ⟨_, by simp only [reachableFrom, hm, hrest]; rfl⟩

theorem sweep_ok (now grace : Nat) (plan : Plan Hash) (q : FilesystemProvider Bytes Hash) :
    ∃ report, (sweep F {} now grace plan q).2 = .ok report := by
  obtain ⟨blobReport, hb⟩ := Cas.gc_ok F now grace plan.blobs q.blobs noGc
  obtain ⟨commitReport, hc⟩ := Cas.gc_ok F now grace (plan.graph.map Commit.id) q.commits noGc
  simp only [sweep, hb, hc]
  exact ⟨_, rfl⟩

theorem planRetention_of_readable {history : List (Commit Hash)}
    (hv : p.visibleCommits F {} = .ok history)
    (hread : ∀ id, KeepsCommit F rule roots p history id → ∃ commit manifest,
      p.readCommit F {} id = .ok commit ∧ p.readManifest F {} commit = .ok manifest) :
    ∃ plan, p.planRetention F {} rule roots = .ok plan := by
  simp only [planRetention_ok_iff, true_and]
  cases hlast : (retainedPrefix rule history).getLast? with
  | none => exact ⟨none, history, hv, by rw [hlast]⟩
  | some last =>
    obtain ⟨floor, head, _, _, hw⟩ := visibleCommits_ok_iff.mp hv
    have hretained : ∀ commit ∈ retainedPrefix rule history,
        p.readCommit F {} commit.id = .ok commit :=
      fun commit hc => read_of_firstParents hw commit (List.mem_of_mem_take hc)
    have hkeeps : ∀ id, Worklist.Marked (p.readCommit F {}) (graphParents last.id)
        (graphRoots (retainedPrefix rule history) roots) id →
          KeepsCommit F rule roots p history id := by
      intro id hm
      rw [KeepsCommit, floorOf_some hlast, parentsToFloor_some]
      exact hm.mono fun _ hk => List.mem_reverse.mp hk
    obtain ⟨graph, hg⟩ := Worklist.collect_ok_of_readable Error.endless readCommit_stored
      fun id hm => by
        obtain ⟨commit, _, hr, _⟩ := hread id (hkeeps id hm)
        exact ⟨commit, hr⟩
    have hmanifests : ∀ commit ∈ graph, ∃ manifest, p.readManifest F {} commit = .ok manifest := by
      intro commit hc
      obtain ⟨hm, hr⟩ := (Worklist.mem_collect_iff readCommit_id hg commit).mp hc
      obtain ⟨found, manifest, hf, hman⟩ := hread _ (hkeeps _ hm)
      rw [hr] at hf
      cases hf
      exact ⟨manifest, hman⟩
    obtain ⟨hashes, hh⟩ := reachableFrom_of_readable hmanifests
    refine ⟨some ⟨last.id, history.length - (retainedPrefix rule history).length,
      retainedPrefix rule history, graph, hashes ++ roots.blobs⟩, history, hv, ?_⟩
    rw [hlast]
    refine ⟨graph, hashes ++ roots.blobs, ?_, ?_, rfl⟩
    · simp only [retentionGraph, graphCommit_eq hretained]
      exact hg
    · simp only [reachableBlobs, hh]
      rfl

/-- A pass that can read all it has to keep ends well. -/
theorem prune_ok_of_readable {history : List (Commit Hash)} (now grace : Nat)
    (hv : p.visibleCommits F {} = .ok history)
    (hread : ∀ id, KeepsCommit F rule roots p history id → ∃ commit manifest,
      p.readCommit F {} id = .ok commit ∧ p.readManifest F {} commit = .ok manifest) :
    ∃ report, (p.pruneHistoryWithGrace F {} rule roots now grace).result = .ok report := by
  obtain ⟨plan, hplan⟩ := planRetention_of_readable hv hread
  unfold pruneHistoryWithGrace
  rw [hplan]
  cases plan with
  | none => exact ⟨_, rfl⟩
  | some plan => exact sweep_ok now grace plan _

end Plan

end FilesystemProvider

end AuruPm
