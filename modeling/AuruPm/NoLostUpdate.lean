import AuruPm.RunInvariant
import AuruPm.Symbolic

/-!
# No lost update

However the pushes interleave, every version that was ever `HEAD` is an ancestor of every later
one, and a push that reports its commit made it `HEAD`.
-/

namespace AuruPm

set_option autoImplicit false

open SortedAssoc Threads

variable {Client Bytes Hash : Type} [DecidableEq Hash]

/-- `get_commit` names the second as a parent of the first. -/
def ParentOf (F : Formats Bytes Hash) (p : FilesystemProvider Bytes Hash) (child parent : Hash) :
    Prop :=
  ∃ commit, p.getCommit F {} child = .ok commit ∧ parent ∈ commit.parents

/-- The second is an ancestor of the first, through some chain of parents. -/
abbrev Ancestor (F : Formats Bytes Hash) (p : FilesystemProvider Bytes Hash) : Hash → Hash → Prop :=
  Relation.ReflTransGen (ParentOf F p)

theorem Ancestor.keeps {F : Formats Bytes Hash} {p p' : FilesystemProvider Bytes Hash}
    (h : p.Keeps F p') {newer older : Hash} (ha : Ancestor F p newer older) :
    Ancestor F p' newer older := by
  refine Relation.ReflTransGen.mono (fun child parent => ?_) _ _ ha
  rintro ⟨commit, hc, hp⟩
  exact ⟨commit, h.commits _ _ hc, hp⟩

/-- What holds of the published versions and of the reports. -/
structure NoLostUpdate (F : Formats Bytes Hash) (s : Shared Client Bytes Hash) : Prop where
  /-- The version published last is `HEAD`. -/
  head : s.provider.getHead {} = .ok s.versions.head?
  /-- Each published version descends from every one before it. -/
  ancestors : s.versions.Pairwise fun newer older => Ancestor F s.provider newer older
  /-- What a push reports as committed, it made `HEAD`. -/
  reported : ∀ push commitId wasMerge mirrors unavailable,
    (push, .committed commitId wasMerge mirrors unavailable) ∈ s.reports →
      ∃ v ∈ s.published, v.push = push ∧ v.commit = commitId

/-- The inductive form. -/
structure Descends (F : Formats Bytes Hash) (s : Shared Client Bytes Hash) : Prop where
  floor : s.provider.floor = .missing
  ancestors : s.versions.Pairwise fun newer older => Ancestor F s.provider newer older
  reported : ∀ push commitId wasMerge mirrors unavailable,
    (push, .committed commitId wasMerge mirrors unavailable) ∈ s.reports →
      ∃ v ∈ s.published, v.push = push ∧ v.commit = commitId

section Outline
variable [DecidableEq Client] {F : Formats Bytes Hash} {R : Readers Bytes Hash}
variable {s s' : Shared Client Bytes Hash}

omit [DecidableEq Client] in
theorem Descends.keeps (h : Descends F s) (hp : s'.published = s.published)
    (hr : s'.reports = s.reports) (hf : s'.provider.floor = s.provider.floor)
    (hk : s.provider.Keeps F s'.provider) : Descends F s' where
  floor := hf.trans h.floor
  ancestors := by
    rw [Shared.versions, hp]
    exact h.ancestors.imp fun ha => ha.keeps hk
  reported := by
    rw [hr, hp]
    exact h.reported

omit [DecidableEq Client] in
/-- The new `HEAD` has the old one among its parents, so it descends from all before. -/
theorem Descends.publish (h : Descends F s) (hs : Settled F s) {push : Nat}
    {request : PushRequest Client Bytes Hash} {w : Working Bytes Hash} {commit : Commit Hash}
    {fromHead : Option Hash} {p : FilesystemProvider Bytes Hash}
    (hb : Builds F R request w fromHead commit)
    (hread : s.provider.readCommit F {} commit.id = .ok commit)
    (hp : s.provider.advanceHead F {} fromHead commit.id = .ok (p, .advanced)) :
    Descends F (s.publish push request commit.id p) := by
  obtain ⟨hhead, rfl, -⟩ := FilesystemProvider.advanceHead_spec hp
  rw [readHead_headOf hs.head] at hhead
  cases hhead
  refine ⟨h.floor, ?_, ?_⟩
  · refine List.pairwise_cons.mpr ⟨fun older hold => ?_, h.ancestors⟩
    change older ∈ s.versions at hold
    obtain ⟨last, before, hv⟩ := List.exists_cons_of_ne_nil (List.ne_nil_of_mem hold)
    have hparent : last ∈ commit.parents := hb.fromHead_mem (by rw [hv]; rfl)
    have hdesc : Ancestor F s.provider last older := by
      rw [hv] at hold
      rcases List.mem_cons.mp hold with rfl | hold
      · exact .refl
      · exact (List.pairwise_cons.mp (hv ▸ h.ancestors)).1 older hold
    exact .head ⟨commit, hread, hparent⟩ hdesc
  · intro push' commitId wasMerge mirrors unavailable hr
    obtain ⟨v, hv, hpush, hid⟩ := h.reported push' commitId wasMerge mirrors unavailable hr
    exact ⟨v, List.mem_cons_of_mem _ hv, hpush, hid⟩

theorem descends_extension (hF : F.Lawful) :
    Extension (phases F R pushesOnly) (Grows F) (Settled F)
      (fun push q => KnowsPhase F push q.1 q.2) (@Descends Client Bytes Hash _ F)
      (fun _ _ _ => True) where
  stable _ _ _ _ _ _ _ _ _ _ := trivial
  env s s' henv _ _ _ h := by
    rcases henv with ⟨pass, hno, -⟩ | ⟨client, sidecar, -, rfl⟩
    · exact False.elim hno
    · exact h.keeps rfl rfl rfl (.refl _)
  begins _ _ _ _ _ _ := trivial
  acts push q s q' s' ha _ hs _ hk _ h _ := by
    refine ⟨?_, trivial⟩
    rcases moves_cases hF ha.2 hs with ⟨hp, hr, hf, -, hkeeps⟩ | ⟨w, commit, _, p, hq, hb, -, hadv, rfl⟩
    · exact h.keeps hp hr hf hkeeps
    · rw [hq] at hk
      exact h.publish hs hb (hk.2.2 h.floor) hadv
  ends push q s s' he _ _ _ hk h _ := by
    obtain ⟨outcome, hends, rfl⟩ := he
    refine ⟨h.floor, h.ancestors, fun push' commitId wasMerge mirrors unavailable hr => ?_⟩
    rcases List.mem_cons.mp hr with heq | hr
    · cases heq
      -- only a push that advanced `HEAD` ends so, and it knows its entry
      cases hphase : q.2 with
      | advanced w commit =>
        rw [hphase] at hends hk
        obtain ⟨_, _, _, heq⟩ := hends
        cases heq
        exact ⟨_, hk.2.2, rfl, rfl⟩
      | working w =>
        rw [hphase] at hends
        exact False.elim hends
      | started => rw [hphase] at hends; exact False.elim hends
      | sawHead => rw [hphase] at hends; exact False.elim hends
      | stored => rw [hphase] at hends; exact False.elim hends
    · exact h.reported push' commitId wasMerge mirrors unavailable hr

/-- In every run of pushes, whatever their interleaving, no update is lost. -/
theorem no_lost_update (hF : F.Lawful) (h : Run F R pushesOnly s) : NoLostUpdate F s := by
  have ho := (settled_outline hF R (pushesOnly : Limits Client Bytes Hash)).extend (descends_extension hF)
  have hstart : Descends F (.start : Shared Client Bytes Hash) :=
    ⟨rfl, List.Pairwise.nil, fun _ _ _ _ _ hr => absurd hr List.not_mem_nil⟩
  obtain ⟨hs, hd⟩ := Run.invariant ho ⟨settled_start, hstart⟩ h
  refine ⟨?_, hd.ancestors, hd.reported⟩
  exact readHead_headOf hs.head

/-- Two clients push from one version, and the second merges. -/
theorem no_lost_update_two_clients : NoLostUpdate symbolic twoClients :=
  no_lost_update symbolic_lawful twoClients_run.run

end Outline

end AuruPm
