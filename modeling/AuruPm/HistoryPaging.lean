import AuruPm.Retention
import AuruPm.Symbolic

/-!
# Paging through the history

Every page walks again from `HEAD`, past the cursor, which is exclusive, and stops at its
limit or at the floor. A reader that passes each page's last version as the next cursor gets
the first-parent walk in pieces.
-/

namespace AuruPm

set_option autoImplicit false

namespace FilesystemProvider

variable {Bytes Hash : Type} [DecidableEq Hash] {F : Formats Bytes Hash}
variable {p : FilesystemProvider Bytes Hash}

/-- Pages up to the first empty one. Each cursor is the last id of the page before. -/
def readPages (F : Formats Bytes Hash) (p : FilesystemProvider Bytes Hash)
    (limits : Nat → Option Nat) :
    Nat → Nat → Option Hash → Except Error (List (List (CommitSummary Hash)))
  | 0, _, _ => .error .endless
  | rounds + 1, page, before =>
    match p.listHistory F {} ⟨limits page, before⟩ with
    | .error e => .error e
    | .ok summaries =>
      match summaries.getLast? with
      | none => .ok []
      | some last => (readPages F p limits rounds (page + 1) (some last.id)).map (summaries :: ·)

/-- Past the cursor the loop collects up to its limit. A limit of zero counts as one. -/
theorem historyLoop_started {floor start : Option Hash} (before : Option Hash) (limit : Nat)
    {commits : List (Commit Hash)} (h : p.History F floor start commits) {rounds : Nat}
    (hrounds : commits.length ≤ rounds) (out : List (CommitSummary Hash)) :
    p.historyLoop F {} floor before limit rounds start true out =
      .ok (out ++ (commits.map Commit.summary).take (max (limit - out.length) 1)) := by
  induction h generalizing rounds out with
  | nil => cases rounds <;> simp [historyLoop]
  | @stop id commit hr hs =>
    obtain ⟨rounds, rfl⟩ := Nat.exists_eq_succ_of_ne_zero (n := rounds) (by simp at hrounds; omega)
    simp only [decide_eq_true_eq] at hs
    have htake : List.take (max (limit - out.length) 1) [commit.summary] = [commit.summary] :=
      List.take_of_length_le (by simp)
    simp only [historyLoop, hr, hs, if_true, ite_self, List.map_cons, List.map_nil, htake]
  | @cons id commit commits hr hs _ ih =>
    obtain ⟨rounds, rfl⟩ := Nat.exists_eq_succ_of_ne_zero (n := rounds) (by simp at hrounds; omega)
    simp only [List.length_cons, Nat.succ_eq_add_one] at hrounds
    simp only [decide_eq_false_iff_not] at hs
    have hlen : (out ++ [commit.summary]).length = out.length + 1 := by simp
    by_cases hlimit : limit ≤ out.length + 1
    · rw [show max (limit - out.length) 1 = 1 by omega]
      simp only [historyLoop, hr, if_true, true_and, hlen, hlimit, List.map_cons,
        List.take_succ_cons, List.take_zero]
    · rw [show max (limit - out.length) 1 = max (limit - (out.length + 1)) 1 + 1 by omega]
      have hrest := ih (show commits.length ≤ rounds by omega) (out ++ [commit.summary])
      rw [hlen] at hrest
      simp only [historyLoop, hr, hs, if_true, if_false, true_and, hlen, hlimit, Bool.true_or,
        hrest, List.map_cons, List.take_succ_cons, List.append_assoc, List.singleton_append]

/-- Up to the cursor it collects nothing. -/
theorem historyLoop_skipping {floor start : Option Hash} {limit : Nat}
    {above below : List (Commit Hash)} {cursor : Commit Hash}
    (h : p.History F floor start (above ++ cursor :: below))
    (habove : ∀ commit ∈ above, commit.id ≠ cursor.id) {rounds : Nat}
    (hrounds : above.length + (below.length + 1) ≤ rounds) :
    p.historyLoop F {} floor (some cursor.id) limit rounds start false [] =
      .ok ((below.map Commit.summary).take (max limit 1)) := by
  obtain ⟨rounds, rfl⟩ := Nat.exists_eq_succ_of_ne_zero (n := rounds) (by omega)
  induction above generalizing start rounds with
  | nil =>
    simp only [List.length_nil] at hrounds
    cases h with
    | stop hr hs =>
      simp only [decide_eq_true_eq] at hs
      simp [historyLoop, hr, hs]
    | cons hr hs hrest =>
      simp only [decide_eq_false_iff_not] at hs
      have hnext := historyLoop_started (some cursor.id) limit hrest
        (show below.length ≤ rounds by omega) []
      simp only [List.nil_append, List.length_nil, Nat.sub_zero] at hnext
      have hid := readCommit_id _ _ hr
      simp only [historyLoop, hr, hs, hid, Bool.false_eq_true, if_false, false_and, decide_true,
        Bool.or_true, ← hnext]
  | cons commit above ih =>
    rw [List.cons_append] at h
    generalize hl : above ++ cursor :: below = l at h
    cases h with
    | stop => simp at hl
    | cons hr hs hrest =>
      subst hl
      simp only [decide_eq_false_iff_not] at hs
      simp only [List.length_cons] at hrounds
      obtain ⟨rounds, rfl⟩ := Nat.exists_eq_succ_of_ne_zero (n := rounds) (by omega)
      have hne : some commit.id ≠ some cursor.id := fun he =>
        habove commit List.mem_cons_self (Option.some.inj he)
      rw [readCommit_id _ _ hr] at hne
      have hnext := ih hrest (fun c hc => habove c (List.mem_cons_of_mem _ hc)) rounds (by omega)
      rw [historyLoop]
      simp only [hr, hs, hne, Bool.false_eq_true, if_false, false_and, decide_false, Bool.or_self,
        hnext]

theorem visible_nodup {commits : List (Commit Hash)} (h : p.visibleCommits F {} = .ok commits) :
    (commits.map Commit.id).Nodup := by
  obtain ⟨floor, head, -, -, hw⟩ := visibleCommits_ok_iff.mp h
  exact (firstParents_ok_iff.mp hw).nodup readCommit_id

/-- The page after a part of the visible history is the beginning of the rest. -/
theorem listHistory_page {above below : List (Commit Hash)}
    (h : p.visibleCommits F {} = .ok (above ++ below)) (limit : Option Nat) :
    p.listHistory F {} ⟨limit, above.getLast?.map Commit.id⟩ =
      .ok ((below.map Commit.summary).take (max (limit.getD defaultHistoryLimit) 1)) := by
  obtain ⟨floor, head, hf, hh, hw⟩ := visibleCommits_ok_iff.mp h
  have hchain := firstParents_ok_iff.mp hw
  have hrounds : (above ++ below).length ≤ p.commits.length := (Walk.walk_ok_iff.mp hw).2
  have hloop : ∀ before : Option Hash, p.listHistory F {} ⟨limit, before⟩ =
      p.historyLoop F {} floor before (limit.getD defaultHistoryLimit) p.commits.length head
        before.isNone [] := by
    intro before
    simp only [listHistory, hf, hh, orFail, bind, Except.bind]
  rw [hloop]
  rcases List.eq_nil_or_concat above with rfl | ⟨before, cursor, rfl⟩
  · have hstart := historyLoop_started none (limit.getD defaultHistoryLimit) hchain hrounds []
    simpa using hstart
  · have hnodup := visible_nodup h
    simp only [List.concat_eq_append, List.append_assoc, List.singleton_append] at hchain hnodup
    simp only [List.concat_eq_append, List.length_append, List.length_singleton] at hrounds
    rw [List.concat_eq_append, List.getLast?_concat]
    refine historyLoop_skipping hchain (fun commit hc he => ?_) (by omega)
    rw [List.map_append, List.nodup_append] at hnodup
    exact hnodup.2.2 commit.id (List.mem_map_of_mem hc) cursor.id (by simp) he

/-- From a cursor on, the pages are the rest of the visible history, cut into pieces. -/
theorem readPages_from (limits : Nat → Option Nat) (page : Nat) {rounds : Nat}
    (above below : List (Commit Hash)) (h : p.visibleCommits F {} = .ok (above ++ below))
    (hrounds : below.length < rounds) :
    ∃ pages, readPages F p limits rounds page (above.getLast?.map Commit.id) = .ok pages ∧
      pages.flatten = below.map Commit.summary ∧ ∀ page ∈ pages, page ≠ [] := by
  induction rounds generalizing page above below with
  | zero => omega
  | succ rounds ih =>
    rw [readPages, listHistory_page h]
    generalize hcount : max ((limits page).getD defaultHistoryLimit) 1 = count
    have hpos : 1 ≤ count := by omega
    rcases List.eq_nil_or_concat (below.take count) with hnil | ⟨before, last, hlast⟩
    · obtain rfl : below = [] := by
        cases below with
        | nil => rfl
        | cons =>
          obtain ⟨count, rfl⟩ := Nat.exists_eq_succ_of_ne_zero (n := count) (by omega)
          simp at hnil
      exact ⟨[], by simp, rfl, by simp⟩
    · rw [List.concat_eq_append] at hlast
      have hsplit : p.visibleCommits F {} = .ok ((above ++ below.take count) ++ below.drop count) := by
        rw [List.append_assoc, List.take_append_drop]
        exact h
      have hshort : (below.drop count).length < rounds := by
        rw [List.length_drop]
        have : 0 < (below.take count).length := by simp [hlast]
        rw [List.length_take] at this
        omega
      obtain ⟨pages, hpages, hflat, hne⟩ := ih (page + 1) _ _ hsplit hshort
      rw [hlast, ← List.append_assoc, List.getLast?_concat] at hpages
      refine ⟨(below.take count).map Commit.summary :: pages, ?_, ?_, ?_⟩
      · rw [← List.map_take, hlast, List.map_append, List.map_singleton]
        simp only [Option.map_some] at hpages
        simp only [List.getLast?_concat, show last.summary.id = last.id from rfl, hpages, Except.map]
      · rw [List.flatten_cons, hflat, ← List.map_append, List.take_append_drop]
      · intro page' hmem
        rcases List.mem_cons.mp hmem with rfl | hmem
        · simp [hlast]
        · exact hne page' hmem

/-- Whatever the limits, the pages end, and are together the walk from `HEAD` to the floor. -/
theorem paging_exact (F : Formats Bytes Hash) (p : FilesystemProvider Bytes Hash)
    {commits : List (Commit Hash)} (h : p.visibleCommits F {} = .ok commits)
    (limits : Nat → Option Nat) :
    ∃ pages, readPages F p limits (commits.length + 1) 0 none = .ok pages ∧
      pages.flatten = commits.map Commit.summary ∧
      (pages.flatten.map CommitSummary.id).Nodup ∧ ∀ page ∈ pages, page ≠ [] := by
  obtain ⟨pages, hpages, hflat, hne⟩ := readPages_from limits 0 [] commits h
    (Nat.lt_succ_self _)
  refine ⟨pages, hpages, hflat, ?_, hne⟩
  rw [hflat, List.map_map]
  exact visible_nodup h

/-- Pages of one version each. -/
theorem paging_exact_ones : ∃ commits, twoClients.provider.visibleCommits symbolic {} = .ok commits ∧
    ∃ pages, readPages symbolic twoClients.provider (fun _ => some 1) (commits.length + 1) 0 none =
        .ok pages ∧ pages.flatten = commits.map Commit.summary ∧
      (pages.flatten.map CommitSummary.id).Nodup ∧ ∀ page ∈ pages, page ≠ [] := by
  obtain ⟨commits, h⟩ := exists_of_isOk
    (show (twoClients.provider.visibleCommits symbolic {}).isOk = true by decide +kernel)
  exact ⟨commits, h, paging_exact symbolic twoClients.provider h fun _ => some 1⟩

end FilesystemProvider

end AuruPm
