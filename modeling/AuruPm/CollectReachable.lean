import AuruPm.HistoryPaging

/-!
# The collector's reachable set

Before it deletes anything a client collects what a provider still needs: it pages through the
visible history, then follows parents from there and from the protected commits, not past the
last visible version. The retention pass of the provider computes the same set by itself.
-/

namespace AuruPm

set_option autoImplicit false

namespace FilesystemProvider

variable {Bytes Hash : Type} [DecidableEq Hash] (F : Formats Bytes Hash)

/-- `seen_pages.insert` for each version of a page, up to one that was seen. -/
def insertPage : List (CommitSummary Hash) → List Hash → Except Error (List Hash)
  | [], seen => .ok seen
  | summary :: history, seen =>
    if summary.id ∈ seen then
      .error (.other ("provider repeated commit " ++ F.hashText summary.id ++ " while paging history"))
    else insertPage history (summary.id :: seen)

/-- The paging loop of `collect_reachable_with_roots`, one page a round. -/
def pageHistory (p : FilesystemProvider Bytes Hash) :
    Nat → Option Hash → List Hash → List (CommitSummary Hash) →
      Except Error (List (CommitSummary Hash))
  | 0, _, _, _ => .error .endless
  | rounds + 1, before, seen, visibleHistory => do
    let history ← p.listHistory F {} ⟨some 100, before⟩
    match history.getLast? with
    | none => return visibleHistory
    | some last => do
      let seen ← insertPage F history seen
      pageHistory p rounds (some last.id) seen (visibleHistory ++ history)

/-- What the collector reads for one id: the commit, then its manifest. -/
def collectCommit (p : FilesystemProvider Bytes Hash) (id : Hash) :
    Except Error (Commit Hash × SampleManifest Hash) := do
  let commit ← p.getCommit F {} id
  let manifest ← p.readManifest F {} commit
  return (commit, manifest)

def collectParents (floor : Option Hash) (id : Hash) (read : Commit Hash × SampleManifest Hash) :
    List Hash :=
  parentsToFloor floor id read.1

def collectReachableWithRoots (p : FilesystemProvider Bytes Hash) (roots : RetentionRoots Hash) :
    Except Error (List Hash) := do
  let visibleHistory ← p.pageHistory F (p.commits.length + 1) none [] []
  let floor := visibleHistory.getLast?.map CommitSummary.id
  -- popped from the end
  let pending := (visibleHistory.map CommitSummary.id ++ roots.commits).reverse
  let found ← Worklist.collect .endless (p.collectCommit F) (collectParents floor)
    (Worklist.budget (p.collectCommit F) (collectParents floor) (p.commits.map Prod.fst) pending)
    pending [] []
  return roots.blobs ++ found.flatMap fun read => commitBlobs read.1 read.2

variable {F} {p : FilesystemProvider Bytes Hash}

theorem insertPage_ok {history : List (CommitSummary Hash)} {seen : List Hash}
    (hnodup : (history.map CommitSummary.id).Nodup)
    (hnew : ∀ summary ∈ history, summary.id ∉ seen) :
    insertPage F history seen = .ok ((history.map CommitSummary.id).reverse ++ seen) := by
  induction history generalizing seen with
  | nil => rfl
  | cons summary history ih =>
    rw [List.map_cons, List.nodup_cons] at hnodup
    rw [insertPage, if_neg (hnew summary List.mem_cons_self), ih hnodup.2]
    · simp
    · intro other hother hmem
      rcases List.mem_cons.mp hmem with he | hmem
      · exact hnodup.1 (he ▸ List.mem_map_of_mem hother)
      · exact hnew other (List.mem_cons_of_mem _ hother) hmem

/-- The paging loop gets the pages one after another. None of their versions is a repeated one. -/
theorem pageHistory_of_pages {rounds page : Nat} {before : Option Hash}
    {pages : List (List (CommitSummary Hash))} (seen : List Hash)
    (hpages : readPages F p (fun _ => some 100) rounds page before = .ok pages)
    (hnodup : (pages.flatten.map CommitSummary.id).Nodup)
    (hnew : ∀ summary ∈ pages.flatten, summary.id ∉ seen) (out : List (CommitSummary Hash)) :
    p.pageHistory F rounds before seen out = .ok (out ++ pages.flatten) := by
  induction rounds generalizing page before pages seen out with
  | zero => cases hpages
  | succ rounds ih =>
    rw [readPages] at hpages
    rw [pageHistory]
    cases hlist : p.listHistory F {} ⟨some 100, before⟩ with
    | error e =>
      rw [hlist] at hpages
      cases hpages
    | ok history =>
      simp only [hlist, bind, Except.bind] at hpages ⊢
      cases hlast : history.getLast? with
      | none =>
        simp only [hlast, Except.ok.injEq] at hpages
        subst hpages
        simp [pure, Except.pure]
      | some last =>
        simp only [hlast] at hpages ⊢
        obtain ⟨rest, hrest, rfl⟩ := map_ok_iff.mp hpages
        rw [List.flatten_cons, List.map_append, List.nodup_append] at hnodup
        obtain ⟨hhere, hthere, hapart⟩ := hnodup
        rw [insertPage_ok hhere fun summary hs => hnew summary (by simp [hs])]
        simp only
        rw [ih _ hrest hthere, List.append_assoc, List.flatten_cons]
        intro summary hs hmem
        rcases List.mem_append.mp hmem with hmem | hmem
        · exact hapart _ (List.mem_reverse.mp hmem) _ (List.mem_map_of_mem hs) rfl
        · exact hnew summary (by simp only [List.flatten_cons, List.mem_append, hs, or_true]) hmem

theorem pageHistory_of_visible {commits : List (Commit Hash)}
    (h : p.visibleCommits F {} = .ok commits) :
    p.pageHistory F (p.commits.length + 1) none [] [] = .ok (commits.map Commit.summary) := by
  obtain ⟨floor, head, -, -, hw⟩ := visibleCommits_ok_iff.mp h
  obtain ⟨pages, hpages, hflat, -⟩ := readPages_from (fun _ => some 100) 0 [] commits h
    (Nat.lt_succ_of_le (Walk.walk_ok_iff.mp hw).2)
  have hnodup : (pages.flatten.map CommitSummary.id).Nodup := by
    rw [hflat, List.map_map]
    exact visible_nodup h
  have hloop := pageHistory_of_pages [] hpages hnodup (by simp) []
  rw [hflat] at hloop
  exact hloop

theorem collectCommit_ok_iff {id : Hash} {read : Commit Hash × SampleManifest Hash} :
    p.collectCommit F id = .ok read ↔
      p.readCommit F {} id = .ok read.1 ∧ p.readManifest F {} read.1 = .ok read.2 := by
  obtain ⟨commit, manifest⟩ := read
  simp only [collectCommit, getCommit, bind_ok_iff, pure, Except.pure, Except.ok.injEq,
    Prod.mk.injEq]
  constructor
  · rintro ⟨commit, hc, manifest, hm, rfl, rfl⟩
    exact ⟨hc, hm⟩
  · rintro ⟨hc, hm⟩
    exact ⟨commit, hc, manifest, hm, rfl, rfl⟩

/-- The blobs of a list of commits, each with what its manifest lists. -/
theorem mem_reachableFrom {io : Faults Hash} {commits : List (Commit Hash)} {hashes : List Hash}
    (h : p.reachableFrom F io commits = .ok hashes) (hash : Hash) :
    hash ∈ hashes ↔ ∃ commit ∈ commits, ∃ manifest, p.readManifest F io commit = .ok manifest ∧
      hash ∈ commitBlobs commit manifest := by
  constructor
  · intro hmem
    induction commits generalizing hashes with
    | nil =>
      cases h
      cases hmem
    | cons first commits ih =>
      simp only [reachableFrom, bind_ok_iff, pure, Except.pure, Except.ok.injEq] at h
      obtain ⟨manifest, hm, rest, hrest, rfl⟩ := h
      rcases List.mem_append.mp hmem with hmem | hmem
      · exact ⟨first, List.mem_cons_self, manifest, hm, hmem⟩
      · obtain ⟨commit, hc, found⟩ := ih hrest hmem
        exact ⟨commit, List.mem_cons_of_mem _ hc, found⟩
  · rintro ⟨commit, hc, manifest, hm, hmem⟩
    obtain ⟨manifest', hm', hall⟩ := reachableFrom_ok h hc
    rw [hm] at hm'
    cases hm'
    exact hall hash hmem

/-- The collector reads the commits of the graph, and with each its manifest. -/
theorem mem_found_iff {retained : List (Commit Hash)} {floor : Hash} {roots : RetentionRoots Hash}
    {graph : List (Commit Hash)} {found : List (Commit Hash × SampleManifest Hash)} {pops : Nat}
    (hread : ∀ commit ∈ retained, p.readCommit F {} commit.id = .ok commit)
    (hg : p.retentionGraph F {} retained floor roots = .ok graph)
    (hfound : Worklist.collect .endless (p.collectCommit F) (collectParents (some floor)) pops
      (graphRoots retained roots) [] [] = .ok found) (commit : Commit Hash) :
    commit ∈ found.map Prod.fst ↔ commit ∈ graph := by
  have hcommits := Worklist.collect_map (graphParents floor) Prod.fst
    (fun _ _ hr => (collectCommit_ok_iff.mp hr).1)
    (fun id read => (congrFun (congrFun (parentsToFloor_some floor) id) read.1).symm) hfound
  simp only [retentionGraph, graphCommit_eq hread] at hg
  rw [Worklist.mem_collect_iff readCommit_id hg]
  exact Worklist.mem_collect_iff readCommit_id hcommits commit

/-- With the whole visible history retained and its last version as the floor, the retention pass
keeps the blobs that the collector finds. -/
theorem collector_agrees (F : Formats Bytes Hash) (p : FilesystemProvider Bytes Hash)
    (roots : RetentionRoots Hash) {history graph : List (Commit Hash)} {oldest : Commit Hash}
    {blobs reachable : List Hash} (hv : p.visibleCommits F {} = .ok history)
    (holdest : history.getLast? = some oldest)
    (hg : p.retentionGraph F {} history oldest.id roots = .ok graph)
    (hb : p.reachableBlobs F {} graph roots = .ok blobs)
    (hc : p.collectReachableWithRoots F roots = .ok reachable) (hash : Hash) :
    hash ∈ reachable ↔ hash ∈ blobs := by
  have hread : ∀ commit ∈ history, p.readCommit F {} commit.id = .ok commit := by
    obtain ⟨floor, head, -, -, hw⟩ := visibleCommits_ok_iff.mp hv
    exact read_of_firstParents hw
  simp only [collectReachableWithRoots, bind_ok_iff, pure, Except.pure, Except.ok.injEq,
    pageHistory_of_visible hv, exists_eq_left'] at hc
  obtain ⟨found, hfound, rfl⟩ := hc
  have hroots : (List.map CommitSummary.id (history.map Commit.summary) ++ roots.commits).reverse =
      graphRoots history roots := by
    rw [List.map_map]
    rfl
  have hfloor : (history.map Commit.summary).getLast?.map CommitSummary.id = some oldest.id := by
    rw [List.getLast?_map, holdest]
    rfl
  rw [hroots, hfloor] at hfound
  have hcommits := mem_found_iff hread hg hfound
  have hkey : ∀ id read, p.collectCommit F id = .ok read → read.1.id = id :=
    fun id read hr => readCommit_id id read.1 (collectCommit_ok_iff.mp hr).1
  have hmanifest : ∀ read ∈ found, p.readManifest F {} read.1 = .ok read.2 := fun read hr =>
    (collectCommit_ok_iff.mp ((Worklist.mem_collect_iff hkey hfound read).mp hr).2).2
  simp only [reachableBlobs, bind_ok_iff, pure, Except.pure, Except.ok.injEq] at hb
  obtain ⟨kept, hkept, rfl⟩ := hb
  rw [List.mem_append, List.mem_append, or_comm, mem_reachableFrom hkept, List.mem_flatMap]
  apply or_congr_left
  constructor
  · rintro ⟨read, hr, hmem⟩
    exact ⟨read.1, (hcommits read.1).mp (List.mem_map_of_mem hr), read.2, hmanifest read hr, hmem⟩
  · rintro ⟨commit, hcommit, manifest, hm, hmem⟩
    obtain ⟨read, hr, rfl⟩ := List.mem_map.mp ((hcommits commit).mpr hcommit)
    rw [hmanifest read hr] at hm
    cases hm
    exact ⟨read, hr, hmem⟩

/-- The versions of two clients, of which the history shows one line, all protected. -/
theorem collector_agrees_two : ∃ history graph oldest blobs reachable,
    twoClients.provider.visibleCommits symbolic {} = .ok history ∧
    history.getLast? = some oldest ∧
    twoClients.provider.retentionGraph symbolic {} history oldest.id ⟨twoClients.versions, []⟩ =
      .ok graph ∧
    twoClients.provider.reachableBlobs symbolic {} graph ⟨twoClients.versions, []⟩ = .ok blobs ∧
    twoClients.provider.collectReachableWithRoots symbolic ⟨twoClients.versions, []⟩ =
      .ok reachable ∧
    ∀ hash, hash ∈ reachable ↔ hash ∈ blobs := by
  obtain ⟨reachable, hc⟩ := exists_of_isOk
    (show (twoClients.provider.collectReachableWithRoots symbolic ⟨twoClients.versions, []⟩).isOk =
      true by decide +kernel)
  obtain ⟨blobs, hall⟩ := exists_of_isOk
    (show (do
      let history ← twoClients.provider.visibleCommits symbolic {}
      let oldest ← ofSerde (Term.orError history.getLast?)
      let graph ← twoClients.provider.retentionGraph symbolic {} history oldest.id
        ⟨twoClients.versions, []⟩
      twoClients.provider.reachableBlobs symbolic {} graph
        ⟨twoClients.versions, []⟩ : Except Error _).isOk = true by decide +kernel)
  simp only [bind_ok_iff, ofSerde_ok_iff] at hall
  obtain ⟨history, hv, oldest, ho, graph, hg, hb⟩ := hall
  have holdest : history.getLast? = some oldest := by
    cases h : history.getLast? with
    | none =>
      rw [h] at ho
      cases ho
    | some last =>
      rw [h] at ho
      cases ho
      rfl
  exact ⟨history, graph, oldest, blobs, reachable, hv, holdest, hg, hb, hc,
    collector_agrees symbolic twoClients.provider _ hv holdest hg hb hc⟩

end FilesystemProvider

end AuruPm
