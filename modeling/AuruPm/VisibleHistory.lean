import AuruPm.RunInvariant
import AuruPm.Symbolic

/-!
# Visible history

`list_history` follows first parents. As long as no merge becomes `HEAD` it lists every
published version; a merge puts the local version first, and the remote one drops out.
-/

namespace AuruPm

set_option autoImplicit false

open SortedAssoc Threads

namespace FilesystemProvider

variable {Bytes Hash : Type} [DecidableEq Hash] {F : Formats Bytes Hash}
variable {p : FilesystemProvider Bytes Hash}

/-- The loop ends well on a readable chain, and with room for all of it lists all of it. -/
theorem historyLoop_of_chain {floor start : Option Hash} (before : Option Hash) (limit : Nat)
    {commits : List (Commit Hash)} (h : p.History F floor start commits) {rounds : Nat}
    (hrounds : commits.length ≤ rounds) (started : Bool) (out : List (CommitSummary Hash)) :
    ∃ result, p.historyLoop F {} floor before limit rounds start started out = .ok result ∧
      (started = true → out.length + commits.length ≤ limit →
        result = out ++ commits.map Commit.summary) := by
  induction h generalizing rounds started out with
  | nil => exact ⟨out, by cases rounds <;> rfl, fun _ _ => by simp⟩
  | @stop id commit hr hs =>
    obtain ⟨rounds, rfl⟩ := Nat.exists_eq_succ_of_ne_zero (n := rounds) (by simp at hrounds; omega)
    simp only [decide_eq_true_eq] at hs
    cases started with
    | true => exact ⟨out ++ [commit.summary], by simp [historyLoop, hr, hs], fun _ _ => rfl⟩
    | false => exact ⟨out, by simp [historyLoop, hr, hs], fun h => by cases h⟩
  | @cons id commit commits hr hs hrest ih =>
    obtain ⟨rounds, rfl⟩ := Nat.exists_eq_succ_of_ne_zero (n := rounds) (by simp at hrounds; omega)
    simp only [List.length_cons, Nat.succ_eq_add_one] at hrounds
    simp only [decide_eq_false_iff_not] at hs
    cases started with
    | false =>
      obtain ⟨result, hres, -⟩ := ih (show commits.length ≤ rounds by omega)
        (decide (some id = before)) out
      exact ⟨result, by simpa [historyLoop, hr, hs] using hres, fun h => by cases h⟩
    | true =>
      by_cases hlimit : limit ≤ (out ++ [commit.summary]).length
      · refine ⟨out ++ [commit.summary], ?_, fun _ hroom => ?_⟩
        · simp only [historyLoop, hr, if_true, true_and, hlimit]
        · simp only [List.length_append, List.length_cons, List.length_nil] at hlimit hroom
          have hnil : commits = [] := List.length_eq_zero_iff.mp (by omega)
          simp [hnil]
      · obtain ⟨result, hres, hall⟩ := ih (show commits.length ≤ rounds by omega) true
          (out ++ [commit.summary])
        refine ⟨result, ?_, fun _ hroom => ?_⟩
        · simpa only [historyLoop, hr, hs, if_true, if_false, true_and, hlimit, Bool.true_or]
            using hres
        · rw [hall rfl (by simp only [List.length_append, List.length_cons, List.length_nil] at hroom ⊢; omega)]
          simp

theorem history_length {floor start : Option Hash} {commits : List (Commit Hash)}
    (h : p.History F floor start commits) : commits.length ≤ p.commits.length := by
  have hw := Walk.walk_eq_of_chain Error.endless readCommit_id readCommit_stored h
  simpa using (Walk.walk_ok_iff.mp hw).2

/-- A provider whose visible history can be walked lists it for any cursor and limit. -/
theorem listHistory_of_visible {commits : List (Commit Hash)}
    (h : p.visibleCommits F {} = .ok commits) (range : HistoryRange Hash) :
    ∃ summaries, p.listHistory F {} range = .ok summaries ∧
      (range.before = none → commits.length ≤ range.limit.getD defaultHistoryLimit →
        summaries = commits.map Commit.summary) := by
  obtain ⟨floor, head, hf, hh, hw⟩ := visibleCommits_ok_iff.mp h
  have hchain := firstParents_ok_iff.mp hw
  obtain ⟨result, hres, hall⟩ := historyLoop_of_chain range.before
    (range.limit.getD defaultHistoryLimit) hchain (history_length hchain)
    range.before.isNone []
  refine ⟨result, ?_, fun hb hroom => ?_⟩
  · simp only [listHistory, hf, hh, hres, orFail, bind, Except.bind]
  · simpa using hall (by simp [hb]) (by simpa using hroom)

end FilesystemProvider

variable {Client Bytes Hash : Type} [DecidableEq Hash]

/-- Without a cursor and with room for it, the listing has every version that was ever `HEAD`. -/
def ListsEveryVersion (F : Formats Bytes Hash) (s : Shared Client Bytes Hash) : Prop :=
  ∀ limit, s.published.length ≤ limit → ∃ summaries,
    s.provider.listHistory F {} ⟨some limit, none⟩ = .ok summaries ∧
      ∀ id ∈ s.versions, id ∈ summaries.map CommitSummary.id

/-- Pushes and no retention passes. `HEAD` is never advanced to a commit with two parents. -/
def withoutMerges (F : Formats Bytes Hash) : Limits Client Bytes Hash where
  advance s _ toHead := ∀ commit, s.provider.getCommit F {} toHead = .ok commit →
    commit.parents.length ≤ 1
  pass _ _ := False
  restore _ _ := True

/-- The first-parent walk from `HEAD` reads the published versions, one by one. -/
structure Linear (F : Formats Bytes Hash) (s : Shared Client Bytes Hash) : Prop where
  floor : s.provider.floor = .missing
  chain : ∃ commits, s.provider.History F none s.versions.head? commits ∧
    commits.map Commit.id = s.versions

section Outline
variable [DecidableEq Client] {F : Formats Bytes Hash} {R : Readers Bytes Hash}
variable {s s' : Shared Client Bytes Hash}

omit [DecidableEq Client] in
theorem Linear.keeps (h : Linear F s) (hp : s'.published = s.published)
    (hf : s'.provider.floor = s.provider.floor) (hk : s.provider.Keeps F s'.provider) :
    Linear F s' where
  floor := hf.trans h.floor
  chain := by
    obtain ⟨commits, hc, hids⟩ := h.chain
    rw [Shared.versions, hp]
    exact ⟨commits, hc.congr (fun id commit hr _ => hk.commits id commit hr) fun _ _ _ _ => rfl, hids⟩

omit [DecidableEq Client] in
theorem Linear.publish (h : Linear F s) (hs : Settled F s) {push : Nat}
    {request : PushRequest Client Bytes Hash} {w : Working Bytes Hash} {commit : Commit Hash}
    {fromHead : Option Hash} {p : FilesystemProvider Bytes Hash}
    (hb : Builds F R request w fromHead commit)
    (hread : s.provider.readCommit F {} commit.id = .ok commit) (hone : commit.parents.length ≤ 1)
    (hp : s.provider.advanceHead F {} fromHead commit.id = .ok (p, .advanced)) :
    Linear F (s.publish push request commit.id p) := by
  obtain ⟨hhead, rfl, -⟩ := FilesystemProvider.advanceHead_spec hp
  rw [readHead_headOf hs.head] at hhead
  cases hhead
  obtain ⟨commits, hc, hids⟩ := h.chain
  refine ⟨h.floor, commit :: commits, ?_, ?_⟩
  · refine .cons hread (by simp) ?_
    rw [hb.single_parent hone]
    exact hc
  · simp only [List.map_cons, hids]
    rfl

theorem linear_extension (hF : F.Lawful) :
    Extension (phases F R (withoutMerges F)) (Grows F) (Settled F)
      (fun push q => KnowsPhase F push q.1 q.2) (@Linear Client Bytes Hash _ F)
      (fun _ _ _ => True) where
  stable _ _ _ _ _ _ _ _ _ _ := trivial
  env s s' henv _ _ _ h := by
    rcases henv with ⟨pass, hno, -⟩ | ⟨client, sidecar, -, rfl⟩
    · exact False.elim hno
    · exact h.keeps rfl rfl (.refl _)
  begins _ _ _ _ _ _ := trivial
  acts push q s q' s' ha _ hs _ hk _ h _ := by
    refine ⟨?_, trivial⟩
    rcases moves_cases hF ha.2 hs with ⟨hp, -, hf, -, hkeeps⟩ |
      ⟨w, commit, _, p, hq, hb, hone, hadv, rfl⟩
    · exact h.keeps hp hf hkeeps
    · rw [hq] at hk
      have hread := hk.2.2 h.floor
      exact h.publish hs hb hread (hone commit hread) hadv
  ends push q s s' he _ _ _ _ h _ := by
    obtain ⟨outcome, -, rfl⟩ := he
    exact ⟨h.floor, h.chain⟩

/-- As long as no merge becomes `HEAD`, the listing has every version that ever was. -/
theorem lists_every_version (hF : F.Lawful) (h : Run F R (withoutMerges F) s) :
    ListsEveryVersion F s := by
  have ho := (settled_outline hF R (withoutMerges F : Limits Client Bytes Hash)).extend (linear_extension hF)
  have hstart : Linear F (.start : Shared Client Bytes Hash) := ⟨rfl, [], .nil, rfl⟩
  obtain ⟨hs, hfloor, commits, hc, hids⟩ := Run.invariant ho ⟨settled_start, hstart⟩ h
  intro limit hlimit
  have hvisible : s.provider.visibleCommits F {} = .ok commits := by
    refine FilesystemProvider.visibleCommits_ok_iff.mpr ⟨none, s.versions.head?, ?_,
      readHead_headOf hs.head, FilesystemProvider.firstParents_ok_iff.mpr hc⟩
    simp [FilesystemProvider.readHistoryFloor, hfloor, orFail]
  obtain ⟨summaries, hlist, hall⟩ :=
    FilesystemProvider.listHistory_of_visible hvisible ⟨some limit, none⟩
  refine ⟨summaries, hlist, fun id hid => ?_⟩
  have hlen : commits.length = s.published.length := by
    have := congrArg List.length hids
    simpa [Shared.versions] using this
  rw [hall rfl (by simpa [hlen] using hlimit), List.map_map,
    show CommitSummary.id ∘ Commit.summary = (Commit.id : Commit Hash → Hash) from rfl, hids]
  exact hid

end Outline

/-- The versions that a listing of so many shows. -/
def listed (s : Shared Nat Term Term) (limit : Nat) : List Term :=
  ((s.provider.listHistory symbolic {} ⟨some limit, none⟩).toOption.getD []).map CommitSummary.id

/-- The version that the second client merged in is not listed. -/
theorem merged_in_unlisted : ∃ s : Shared Nat Term Term,
    Run symbolic nativeReaders pushesOnly s ∧ ¬ ListsEveryVersion symbolic s := by
  refine ⟨twoClients, twoClients_run.run, fun h => ?_⟩
  obtain ⟨summaries, hlist, hall⟩ := h 3 (by decide +kernel)
  have hshown : ∀ id ∈ twoClients.versions, id ∈ listed twoClients 3 := by
    rw [listed, hlist]
    exact hall
  exact absurd hshown (by decide +kernel)

/-- Calls that advance `HEAD` to a commit with two parents fail the test. -/
def noMerge (s : Shared Nat Term Term) : Call Term Term → Bool
  | .advanceHead _ toHead =>
    match s.provider.getCommit symbolic {} toHead with
    | .ok commit => decide (commit.parents.length ≤ 1)
    | .error _ => true
  | _ => true

theorem withoutMerges_of_noMerge (s : Shared Nat Term Term) (c : Call Term Term)
    (h : noMerge s c = true) : (withoutMerges symbolic).Allow s c := by
  cases c with
  | advanceHead fromHead toHead =>
    intro commit hc
    simpa only [noMerge, hc, decide_eq_true_eq] using h
  | _ => trivial

/-- Two pushes, one after the other. -/
theorem lists_every_version_two : ListsEveryVersion symbolic
    (sharedOnce.pushAlone symbolic nativeReaders 2 1 (pushOf 1 (song "G" "Untitled"))) := by
  have hfirst : RunOf symbolic nativeReaders (withoutMerges symbolic) 1 sharedOnce :=
    (RunOf.start.pushWithin withoutMerges_of_noMerge 1 _ (by decide +kernel)).restore 1 _ trivial
  have hsecond := hfirst.pushWithin withoutMerges_of_noMerge 2 (pushOf 1 (song "G" "Untitled"))
    (by decide +kernel)
  exact lists_every_version symbolic_lawful hsecond.run

end AuruPm
