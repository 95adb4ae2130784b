import AuruPm.ClientProtocol
import AuruPm.Objects

/-!
# What holds throughout the runs

The folder stays sound, `HEAD` names the version published last, and as long as there is no
floor nothing that was stored is lost. A push knows that what it read or stored is genuine.
-/

namespace AuruPm

set_option autoImplicit false

open SortedAssoc Threads

variable {Client Bytes Hash : Type}

def headOf : List Hash → ControlFile Hash
  | [] => .missing
  | version :: _ => .names version

section Invariant
variable [DecidableEq Hash] (F : Formats Bytes Hash)

structure Settled (s : Shared Client Bytes Hash) : Prop where
  sound : s.provider.Sound F
  head : s.provider.head = headOf s.versions
  floor : s.provider.floor = .missing ∨ ∃ id, s.provider.floor = .names id

/-- How the shared state grows: nothing published is forgotten, a floor stays, and before there
is one every object stays. -/
structure Grows (s s' : Shared Client Bytes Hash) : Prop where
  published : s.published <:+ s'.published
  floor : s'.provider.floor = .missing → s.provider.floor = .missing
  objects : s'.provider.floor = .missing → s.provider.Keeps F s'.provider

/-- What a push knows while it works. -/
structure KnowsWork (w : Working Bytes Hash) (s : Shared Client Bytes Hash) : Prop where
  remoteHead : ∀ id, w.remoteHead = some id → id ∈ s.versions
  blobs : ∀ e ∈ w.blobs, F.contentHash e.2 = e.1
  blobsKept : s.provider.floor = .missing → ∀ e ∈ w.blobs, s.provider.blobs.get F {} e.1 = .ok e.2
  commits : ∀ e ∈ w.commits, e.2.Genuine F ∧ e.2.id = e.1
  commitsKept : s.provider.floor = .missing → ∀ e ∈ w.commits,
    s.provider.readCommit F {} e.1 = .ok e.2

/-- What a push knows in each phase. -/
def KnowsPhase (push : Nat) (request : PushRequest Client Bytes Hash) :
    Phase Bytes Hash → Shared Client Bytes Hash → Prop
  | .started, _ => True
  | .sawHead head, s => ∀ id, head = some id → id ∈ s.versions
  | .working w, s => KnowsWork F w s
  | .stored w commit, s => KnowsWork F w s ∧ commit.Genuine F ∧
      (s.provider.floor = .missing → s.provider.readCommit F {} commit.id = .ok commit)
  | .advanced w commit, s => KnowsWork F w s ∧ commit.Genuine F ∧
      ⟨push, request, commit.id⟩ ∈ s.published

end Invariant

section Steps
variable [DecidableEq Hash] {F : Formats Bytes Hash} {s s' s'' : Shared Client Bytes Hash}

theorem Grows.refl (s : Shared Client Bytes Hash) : Grows F s s :=
  ⟨List.suffix_refl _, id, fun _ => .refl _⟩

theorem Grows.versions (h : Grows F s s') {id : Hash} (hid : id ∈ s.versions) : id ∈ s'.versions := by
  obtain ⟨v, hv, rfl⟩ := List.mem_map.mp hid
  exact List.mem_map_of_mem (h.published.subset hv)

theorem KnowsWork.grows {w : Working Bytes Hash} (h : Grows F s s') (hk : KnowsWork F w s) :
    KnowsWork F w s' where
  remoteHead id hid := h.versions (hk.remoteHead id hid)
  blobs := hk.blobs
  blobsKept hm e he := (h.objects hm).blobs _ _ (hk.blobsKept (h.floor hm) e he)
  commits := hk.commits
  commitsKept hm e he := (h.objects hm).commits _ _ (hk.commitsKept (h.floor hm) e he)

theorem KnowsPhase.grows {push : Nat} {request : PushRequest Client Bytes Hash}
    {phase : Phase Bytes Hash} (h : Grows F s s') (hk : KnowsPhase F push request phase s) :
    KnowsPhase F push request phase s' := by
  cases phase with
  | started => trivial
  | sawHead head => exact fun id hid => h.versions (hk id hid)
  | working w => exact KnowsWork.grows h hk
  | stored w commit =>
    exact ⟨hk.1.grows h, hk.2.1, fun hm => (h.objects hm).commits _ _ (hk.2.2 (h.floor hm))⟩
  | advanced w commit => exact ⟨hk.1.grows h, hk.2.1, h.published.subset hk.2.2⟩

omit [DecidableEq Hash] in
theorem readHead_headOf (h : s.provider.head = headOf s.versions) :
    s.provider.readHead {} = .ok s.versions.head? := by
  simp only [FilesystemProvider.readHead, h]
  cases s.versions <;> rfl

/-- A change of the objects only. -/
theorem Settled.objects (hs : Settled F s) {p : FilesystemProvider Bytes Hash} (hsound : p.Sound F)
    (hkeeps : s.provider.Keeps F p) (hhead : p.head = s.provider.head)
    (hfloor : p.floor = s.provider.floor) :
    Settled F { s with provider := p } ∧ Grows F s { s with provider := p } := by
  refine ⟨⟨hsound, hhead.trans hs.head, ?_⟩, ⟨List.suffix_refl _, ?_, fun _ => hkeeps⟩⟩
  · simp only [hfloor]
    exact hs.floor
  · intro hm
    rw [← hfloor]
    exact hm

theorem Settled.save [DecidableEq Client] (hs : Settled F s) (client : Client)
    (sidecar : Sidecar Hash) :
    Settled F (s.save client sidecar) ∧ Grows F s (s.save client sidecar) :=
  ⟨⟨hs.sound, hs.head, hs.floor⟩, ⟨List.suffix_refl _, id, fun _ => .refl _⟩⟩

theorem Settled.publish (hs : Settled F s) (push : Nat) (request : PushRequest Client Bytes Hash)
    {fromHead : Option Hash} {commit : Hash} {p : FilesystemProvider Bytes Hash}
    (h : s.provider.advanceHead F {} fromHead commit = .ok (p, .advanced)) :
    Settled F (s.publish push request commit p) ∧ Grows F s (s.publish push request commit p) := by
  obtain ⟨-, rfl, -⟩ := FilesystemProvider.advanceHead_spec h
  exact ⟨⟨⟨hs.sound.blobs, hs.sound.commits⟩, rfl, hs.floor⟩,
    ⟨List.suffix_cons _ _, id, fun _ => ⟨fun _ _ h => h, fun _ _ h => h⟩⟩⟩

/-! Retention passes. -/

theorem FilesystemProvider.sound_sweep {p : FilesystemProvider Bytes Hash} (h : p.Sound F)
    (io : Faults Hash) (now grace : Nat) (plan : Plan Hash) :
    (sweep F io now grace plan p).1.Sound F := by
  have hblobs : ∀ e ∈ (Cas.gc F io.blobs now grace plan.blobs p.blobs noGc).1,
      ∃ bytes, Cas.plain F e.1 e.2 = some bytes :=
    fun e he => h.blobs e (Cas.mem_of_mem_gc he)
  unfold sweep
  split
  rename_i blobs result heq
  rw [heq] at hblobs
  split
  · exact ⟨hblobs, h.commits⟩
  · exact ⟨hblobs, fun e he => h.commits e (Cas.mem_of_mem_gc he)⟩

/-- A pass leaves the folder as it was, or writes a floor and sweeps. -/
theorem prune_cases [DecidableEq Client] (F : Formats Bytes Hash) (s : Shared Client Bytes Hash)
    (pass : Pass Hash) : s.prune F pass = s ∨
      ∃ plan history, FilesystemProvider.PlanFor F pass.rule pass.roots s.provider history plan ∧
        s.prune F pass =
          { s with provider := FilesystemProvider.swept F pass.io pass.now pass.grace plan s.provider } ∧
        (s.provider.pruneHistoryWithGrace F pass.io pass.rule pass.roots pass.now pass.grace).result =
          FilesystemProvider.sweptResult F pass.io pass.now pass.grace plan s.provider := by
  rcases FilesystemProvider.pruneHistoryWithGrace_cases F pass.io pass.rule pass.roots pass.now
    pass.grace s.provider with ⟨e, he⟩ | ⟨-, hnone⟩ | ⟨plan, hplan, hsome⟩
  · exact Or.inl (by rw [Shared.prune, he])
  · exact Or.inl (by rw [Shared.prune, hnone])
  · obtain ⟨history, hfor⟩ := FilesystemProvider.planFor_of_ok hplan
    exact Or.inr ⟨plan, history, hfor, by rw [Shared.prune, hsome], by rw [hsome]⟩

theorem Settled.prune [DecidableEq Client] (hs : Settled F s) (pass : Pass Hash) :
    Settled F (s.prune F pass) ∧ Grows F s (s.prune F pass) := by
  rcases prune_cases F s pass with heq | ⟨plan, history, -, heq, -⟩
  · rw [heq]
    exact ⟨hs, .refl s⟩
  · rw [heq]
    obtain ⟨hhead, hfloor⟩ := FilesystemProvider.swept_head_floor F pass.io pass.now pass.grace plan
      s.provider
    have hne : FilesystemProvider.floor (FilesystemProvider.swept F pass.io pass.now pass.grace plan
        s.provider) ≠ .missing := by
      rw [hfloor]
      exact fun h => by cases h
    refine ⟨⟨?_, hhead.trans hs.head, Or.inr ⟨_, hfloor⟩⟩,
      ⟨List.suffix_refl _, fun hm => absurd hm hne, fun hm => absurd hm hne⟩⟩
    have hfloored : ({ s.provider with floor := .names plan.floor } :
        FilesystemProvider Bytes Hash).Sound F := ⟨hs.sound.blobs, hs.sound.commits⟩
    exact FilesystemProvider.sound_sweep hfloored pass.io pass.now pass.grace plan

end Steps

/-! The outline. -/

section Outline
variable [DecidableEq Client] [DecidableEq Hash] {F : Formats Bytes Hash} {R : Readers Bytes Hash}
variable {limits : Limits Client Bytes Hash}

omit [DecidableEq Client] in
theorem settled_start : Settled F (.start : Shared Client Bytes Hash) :=
  ⟨FilesystemProvider.sound_start, rfl, Or.inl rfl⟩

theorem settled_moves (hF : F.Lawful) {push : Nat} {request : PushRequest Client Bytes Hash}
    {phase phase' : Phase Bytes Hash} {s s' : Shared Client Bytes Hash}
    (h : Moves F R limits push request phase s phase' s') (hs : Settled F s)
    (hk : KnowsPhase F push request phase s) :
    Settled F s' ∧ Grows F s s' ∧ KnowsPhase F push request phase' s' := by
  cases h with
  | stay => exact ⟨hs, .refl s, hk⟩
  | seeHead hr =>
    rw [readHead_headOf hs.head] at hr
    cases hr
    exact ⟨hs, .refl s, fun id hid => List.mem_of_mem_head? hid⟩
  | begin s head =>
    exact ⟨hs, .refl _, ⟨hk, fun _ h => absurd h List.not_mem_nil,
      fun _ _ h => absurd h List.not_mem_nil, fun _ h => absurd h List.not_mem_nil,
      fun _ _ h => absurd h List.not_mem_nil⟩⟩
  | load w s => exact ⟨hs, .refl _, ⟨hk.remoteHead, hk.blobs, hk.blobsKept, hk.commits, hk.commitsKept⟩⟩
  | save s hl =>
    obtain ⟨hs', hg⟩ := hs.save request.client _
    exact ⟨hs', hg, KnowsWork.grows hg hk⟩
  | @putBlob w s clock hash bytes p hp =>
    obtain ⟨hsound, hkeeps, hhead, hfloor, hhash, hget⟩ :=
      FilesystemProvider.putBlob_spec hF hs.sound hp
    obtain ⟨hs', hg⟩ := hs.objects hsound hkeeps hhead hfloor
    have hk' : KnowsWork F w { s with provider := p } := KnowsWork.grows hg hk
    refine ⟨hs', hg, ⟨hk'.remoteHead, ?_, ?_, hk'.commits, hk'.commitsKept⟩⟩
    · exact List.forall_mem_cons.mpr ⟨hhash, hk'.blobs⟩
    · exact fun hm => List.forall_mem_cons.mpr ⟨hget, hk'.blobsKept hm⟩
  | @getBlob w s hash bytes hget =>
    refine ⟨hs, .refl _, ⟨hk.remoteHead, ?_, ?_, hk.commits, hk.commitsKept⟩⟩
    · exact List.forall_mem_cons.mpr ⟨FilesystemProvider.get_hash hget, hk.blobs⟩
    · exact fun hm => List.forall_mem_cons.mpr ⟨hget, hk.blobsKept hm⟩
  | @getCommit w s id commit hget =>
    refine ⟨hs, .refl _, ⟨hk.remoteHead, hk.blobs, hk.blobsKept, ?_, ?_⟩⟩
    · exact List.forall_mem_cons.mpr ⟨hs.sound.genuine hF hget, hk.commits⟩
    · exact fun hm => List.forall_mem_cons.mpr ⟨hget, hk.commitsKept hm⟩
  | @putCommit w s clock fromHead commit p hb hmay hp =>
    obtain ⟨_, _, _, _, _, _, _, _, _, _, hrange⟩ := hb
    obtain ⟨hsound, hkeeps, hhead, hfloor, hg, hread⟩ :=
      FilesystemProvider.putCommit_spec hF hs.sound hrange hp
    obtain ⟨hs', hgrows⟩ := hs.objects hsound hkeeps hhead hfloor
    exact ⟨hs', hgrows, KnowsWork.grows hgrows hk, hg, fun _ => hread⟩
  | @advance w s fromHead commit p hb hmay hp =>
    obtain ⟨hs', hg⟩ := hs.publish push request hp
    exact ⟨hs', hg, hk.1.grows hg, hk.2.1, List.mem_cons_self⟩
  | record s hl =>
    obtain ⟨hs', hg⟩ := hs.save request.client _
    exact ⟨hs', hg, hk.1.grows hg, hk.2.1, hg.published.subset hk.2.2⟩

theorem settled_outline (hF : F.Lawful) (R : Readers Bytes Hash)
    (limits : Limits Client Bytes Hash) :
    Outline (phases F R limits) (Grows F) (Settled F) fun push q => KnowsPhase F push q.1 q.2 where
  stable _ _ _ _ hg _ _ hk := hk.grows hg
  env s s' henv hs := by
    rcases henv with ⟨pass, -, rfl⟩ | ⟨client, sidecar, -, rfl⟩
    · exact hs.prune pass
    · exact hs.save client sidecar
  begins push s q hq _ := by
    rw [show q.2 = .started from hq]
    trivial
  acts push q s q' s' ha hs hk := by
    obtain ⟨hq, hm⟩ := ha
    rw [hq]
    exact settled_moves hF hm hs hk
  ends push q s s' he hs _ := by
    obtain ⟨outcome, -, rfl⟩ := he
    exact ⟨⟨hs.sound, hs.head, hs.floor⟩, ⟨List.suffix_refl _, id, fun _ => .refl _⟩⟩

/-- To the published versions and the floor, a call is an advance or nothing. -/
theorem moves_cases (hF : F.Lawful) {push : Nat} {request : PushRequest Client Bytes Hash}
    {phase phase' : Phase Bytes Hash} {s s' : Shared Client Bytes Hash}
    (h : Moves F R limits push request phase s phase' s') (hs : Settled F s) :
    (s'.published = s.published ∧ s'.reports = s.reports ∧
      s'.provider.floor = s.provider.floor ∧ s'.provider.head = s.provider.head ∧
      s.provider.Keeps F s'.provider) ∨
    ∃ w commit fromHead p, phase = .stored w commit ∧ Builds F R request w fromHead commit ∧
      limits.advance s fromHead commit.id ∧
      s.provider.advanceHead F {} fromHead commit.id = .ok (p, .advanced) ∧
      s' = s.publish push request commit.id p := by
  cases h with
  | putBlob hp =>
    obtain ⟨-, hkeeps, hhead, hfloor, -⟩ := FilesystemProvider.putBlob_spec hF hs.sound hp
    exact Or.inl ⟨rfl, rfl, hfloor, hhead, hkeeps⟩
  | putCommit hb hmay hp =>
    obtain ⟨_, _, _, _, _, _, _, _, _, _, hrange⟩ := hb
    obtain ⟨-, hkeeps, hhead, hfloor, -⟩ := FilesystemProvider.putCommit_spec hF hs.sound hrange hp
    exact Or.inl ⟨rfl, rfl, hfloor, hhead, hkeeps⟩
  | advance hb hmay hp => exact Or.inr ⟨_, _, _, _, rfl, hb, hmay, hp, rfl⟩
  | stay => exact Or.inl ⟨rfl, rfl, rfl, rfl, .refl _⟩
  | seeHead => exact Or.inl ⟨rfl, rfl, rfl, rfl, .refl _⟩
  | begin => exact Or.inl ⟨rfl, rfl, rfl, rfl, .refl _⟩
  | load => exact Or.inl ⟨rfl, rfl, rfl, rfl, .refl _⟩
  | save => exact Or.inl ⟨rfl, rfl, rfl, rfl, .refl _⟩
  | getBlob => exact Or.inl ⟨rfl, rfl, rfl, rfl, .refl _⟩
  | getCommit => exact Or.inl ⟨rfl, rfl, rfl, rfl, .refl _⟩
  | record => exact Or.inl ⟨rfl, rfl, rfl, rfl, .refl _⟩

end Outline

section Advance
variable {F : Formats Bytes Hash} {R : Readers Bytes Hash}
variable {request : PushRequest Client Bytes Hash} {w : Working Bytes Hash}

/-- A commit succeeds the `HEAD` it replaces. -/
theorem Builds.fromHead_mem {fromHead : Option Hash} {commit : Commit Hash}
    (h : Builds F R request w fromHead commit) {id : Hash} (hid : fromHead = some id) :
    id ∈ commit.parents := by
  obtain ⟨prepared, _, _, hd, rfl, hp, _⟩ := h
  rw [hp]
  cases hd with
  | fastForward => exact Option.mem_toList.mpr hid
  | first => cases hid
  | merge =>
    cases hid
    simp

/-- A commit that replaces no `HEAD` is a root. -/
theorem Builds.root {commit : Commit Hash} (h : Builds F R request w none commit) :
    commit.parents = [] := by
  obtain ⟨prepared, _, _, hd, hfrom, hp, _⟩ := h
  rw [hp]
  cases hd with
  | fastForward =>
    rw [show w.localHead = none from hfrom]
    rfl
  | first => rfl
  | merge => cases hfrom

/-- With at most one parent, the parent is the `HEAD` it replaces. -/
theorem Builds.single_parent {fromHead : Option Hash} {commit : Commit Hash}
    (h : Builds F R request w fromHead commit) (hone : commit.parents.length ≤ 1) :
    commit.parents.head? = fromHead := by
  cases hfrom : fromHead with
  | none =>
    rw [hfrom] at h
    rw [h.root]
    rfl
  | some last =>
    have hmem := h.fromHead_mem hfrom
    match hps : commit.parents with
    | [] => rw [hps] at hmem; cases hmem
    | [parent] =>
      rw [hps] at hmem
      rw [List.mem_singleton.mp hmem]
      rfl
    | _ :: _ :: _ =>
      rw [hps] at hone
      simp only [List.length_cons] at hone
      omega

end Advance

end AuruPm
