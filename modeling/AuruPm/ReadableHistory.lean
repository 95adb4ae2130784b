import AuruPm.VisibleHistory

/-!
# Readable history

A retention pass puts the floor on the first-parent walk from `HEAD`, so the walk ends before
anything collected. A push keeps it so, unless it merges on a local version from which the walk
no longer ends at the floor.
-/

namespace AuruPm

set_option autoImplicit false

open SortedAssoc Threads

variable {Client Bytes Hash : Type} [DecidableEq Hash]

/-- The first-parent walk from this version ends, at the floor or at a root, and meets only
stored commits. -/
def WalksToFloor (F : Formats Bytes Hash) (p : FilesystemProvider Bytes Hash)
    (start : Option Hash) : Prop :=
  ∃ floor commits, p.readHistoryFloor {} = .ok floor ∧
    p.firstParents F {} floor start = .ok commits

/-- Whatever the cursor and the limit, the history is listed. -/
def HistoryReadable (F : Formats Bytes Hash) (s : Shared Client Bytes Hash) : Prop :=
  ∀ range, ∃ summaries, s.provider.listHistory F {} range = .ok summaries

/-- Pushes, retention passes and restores of any kind, but a merge becomes `HEAD` only if the
walk from its local version ends well. -/
def mergesOnReadable (F : Formats Bytes Hash) : Limits Client Bytes Hash where
  advance s _ toHead := ∀ commit, s.provider.getCommit F {} toHead = .ok commit →
    2 ≤ commit.parents.length → WalksToFloor F s.provider commit.parents.head?
  pass _ _ := True
  restore _ _ := True

/-- The walk from `HEAD` ends well. -/
def Walkable (F : Formats Bytes Hash) (s : Shared Client Bytes Hash) : Prop :=
  WalksToFloor F s.provider s.versions.head?

section Outline
variable {F : Formats Bytes Hash} {R : Readers Bytes Hash} {s s' : Shared Client Bytes Hash}

theorem WalksToFloor.keeps {p p' : FilesystemProvider Bytes Hash} {start : Option Hash}
    (h : WalksToFloor F p start) (hf : p'.floor = p.floor) (hk : p.Keeps F p') :
    WalksToFloor F p' start := by
  obtain ⟨floor, commits, hfloor, hw⟩ := h
  refine ⟨floor, commits, ?_, ?_⟩
  · rw [FilesystemProvider.readHistoryFloor, hf]
    exact hfloor
  · have hc := FilesystemProvider.firstParents_ok_iff.mp hw
    exact FilesystemProvider.firstParents_ok_iff.mpr
      (hc.congr (fun id commit hr _ => hk.commits id commit hr) fun _ _ _ _ => rfl)

/-- The walk goes on from a stored commit when it does from its first parent. -/
theorem WalksToFloor.cons {p : FilesystemProvider Bytes Hash} {commit : Commit Hash} {id : Hash}
    (h : WalksToFloor F p commit.parents.head?) (hr : p.readCommit F {} id = .ok commit) :
    WalksToFloor F p (some id) := by
  obtain ⟨floor, commits, hfloor, hw⟩ := h
  have hc := FilesystemProvider.firstParents_ok_iff.mp hw
  by_cases hs : some id = floor
  · exact ⟨floor, [commit], hfloor, FilesystemProvider.firstParents_ok_iff.mpr
      (.stop hr (by simpa using hs))⟩
  · exact ⟨floor, commit :: commits, hfloor, FilesystemProvider.firstParents_ok_iff.mpr
      (.cons hr (by simpa using hs) hc)⟩

theorem walkable_iff (hs : Settled F s) :
    Walkable F s ↔ ∃ commits, s.provider.visibleCommits F {} = .ok commits := by
  constructor
  · rintro ⟨floor, commits, hf, hw⟩
    exact ⟨commits, FilesystemProvider.visibleCommits_ok_iff.mpr
      ⟨floor, _, hf, readHead_headOf hs.head, hw⟩⟩
  · rintro ⟨commits, h⟩
    obtain ⟨floor, head, hf, hh, hw⟩ := FilesystemProvider.visibleCommits_ok_iff.mp h
    rw [readHead_headOf hs.head] at hh
    cases hh
    exact ⟨floor, commits, hf, hw⟩

/-- A commit that becomes `HEAD` is stored at that moment: nothing is lost before there is a
floor, and with one it is read again. -/
theorem stored_at_advance (hF : F.Lawful) (hs : Settled F s) {push : Nat}
    {request : PushRequest Client Bytes Hash} {w : Working Bytes Hash} {commit : Commit Hash}
    (hk : KnowsPhase F push request (.stored w commit) s) {fromHead : Option Hash}
    {p : FilesystemProvider Bytes Hash}
    (hp : s.provider.advanceHead F {} fromHead commit.id = .ok (p, .advanced)) :
    s.provider.readCommit F {} commit.id = .ok commit := by
  by_cases hm : s.provider.floor = .missing
  · exact hk.2.2 hm
  · obtain ⟨-, -, hvalid⟩ := FilesystemProvider.advanceHead_spec hp
    obtain ⟨found, _, hr, _⟩ := hvalid hm
    obtain ⟨hg, hid⟩ := hs.sound.genuine hF hr
    obtain rfl := genuine_ext hF hg hk.2.1 hid
    exact hr

theorem Walkable.publish (hF : F.Lawful) (h : Walkable F s) (hs : Settled F s) {push : Nat}
    {request : PushRequest Client Bytes Hash} {w : Working Bytes Hash} {commit : Commit Hash}
    {fromHead : Option Hash} {p : FilesystemProvider Bytes Hash}
    (hb : Builds F R request w fromHead commit)
    (hk : KnowsPhase F push request (.stored w commit) s)
    (hmay : (mergesOnReadable F).advance s fromHead commit.id)
    (hp : s.provider.advanceHead F {} fromHead commit.id = .ok (p, .advanced)) :
    Walkable F (s.publish push request commit.id p) := by
  have hread := stored_at_advance hF hs hk hp
  obtain ⟨hhead, rfl, -⟩ := FilesystemProvider.advanceHead_spec hp
  rw [readHead_headOf hs.head] at hhead
  cases hhead
  have hfirst : WalksToFloor F s.provider commit.parents.head? := by
    by_cases hone : commit.parents.length ≤ 1
    · rw [hb.single_parent hone]
      exact h
    · exact hmay commit hread (by omega)
  exact (hfirst.cons hread).keeps rfl ⟨fun _ _ h => h, fun _ _ h => h⟩

variable [DecidableEq Client]

theorem walkable_extension (hF : F.Lawful) :
    Extension (phases F R (mergesOnReadable F)) (Grows F) (Settled F)
      (fun push q => KnowsPhase F push q.1 q.2) (@Walkable Client Bytes Hash _ F)
      (fun _ _ _ => True) where
  stable _ _ _ _ _ _ _ _ _ _ := trivial
  env s s' henv _ hs hs' h := by
    rcases henv with ⟨pass, -, rfl⟩ | ⟨client, sidecar, -, rfl⟩
    · rcases prune_cases F s pass with heq | ⟨plan, history, hfor, heq, -⟩
      · rw [heq]
        exact h
      · rw [walkable_iff hs', heq]
        exact ⟨_, FilesystemProvider.visible_swept hfor pass.now pass.grace⟩
    · exact h
  begins _ _ _ _ _ _ := trivial
  acts push q s q' s' ha _ hs _ hk _ h _ := by
    refine ⟨?_, trivial⟩
    rcases moves_cases hF ha.2 hs with ⟨hp, -, hf, -, hkeeps⟩ |
      ⟨w, commit, _, p, hq, hb, hmay, hadv, rfl⟩
    · rw [Walkable, Shared.versions, hp]
      exact WalksToFloor.keeps h hf hkeeps
    · rw [hq] at hk
      exact Walkable.publish hF h hs hb hk hmay hadv
  ends push q s s' he _ _ _ _ h _ := by
    obtain ⟨outcome, -, rfl⟩ := he
    exact h

end Outline

/-- Calls that advance `HEAD` to a merge on an unreadable version fail the test. -/
def mergesWell (s : Shared Nat Term Term) : Call Term Term → Bool
  | .advanceHead _ toHead =>
    match s.provider.getCommit symbolic {} toHead with
    | .ok commit => decide (commit.parents.length < 2) ||
      (s.provider.readHistoryFloor {} >>= fun floor =>
        s.provider.firstParents symbolic {} floor commit.parents.head?).isOk
    | .error _ => true
  | _ => true

theorem mergesOnReadable_of_mergesWell (s : Shared Nat Term Term) (c : Call Term Term)
    (h : mergesWell s c = true) : (mergesOnReadable symbolic).Allow s c := by
  cases c with
  | advanceHead fromHead toHead =>
    intro commit hc htwo
    simp only [mergesWell, hc, Bool.or_eq_true, decide_eq_true_eq] at h
    have hok := h.resolve_left (by omega)
    cases hw : (s.provider.readHistoryFloor {} >>= fun floor =>
        s.provider.firstParents symbolic {} floor commit.parents.head?) with
    | error e =>
      rw [hw] at hok
      cases hok
    | ok commits =>
      obtain ⟨floor, hf, hp⟩ := bind_ok_iff.mp hw
      exact ⟨floor, commits, hf, hp⟩
  | _ => trivial

/-- Keeps the newest version; objects of the last hour stay. -/
def keepNewest (now : Nat) : Pass Term :=
  ⟨{}, .latest 1, ⟨[], []⟩, now, retentionGcGraceSecs⟩

/-- An old version. -/
def oldVersion : Shared Nat Term Term :=
  Shared.start.pushAlone symbolic nativeReaders 1 0 (pushOf 0 (song "C" "Untitled"))

/-- A young one on top of it, which a second client restored. -/
def youngVersion : Shared Nat Term Term :=
  let s := oldVersion.pushAlone symbolic nativeReaders 10000 1 (pushOf 0 (song "C" "Dawn"))
  s.save 1 (restoredAt s)

/-- A pass after a third version collects the old one. -/
def collectedOnce : Shared Nat Term Term :=
  (youngVersion.pushAlone symbolic nativeReaders 10000 2 (pushOf 0 (song "C" "Dusk"))).prune
    symbolic (keepNewest 10001)

/-- Then the second client merges. -/
def mergedBehind : Shared Nat Term Term :=
  collectedOnce.pushAlone symbolic nativeReaders 10002 3 (pushOf 1 (song "G" "Dawn"))

theorem collectedOnce_run : RunOf symbolic nativeReaders anything 3 collectedOnce := by
  have hmay : ∀ (s : Shared Nat Term Term) c, anything.Allow s c := fun _ c => by
    cases c <;> trivial
  have hold : RunOf symbolic nativeReaders anything 1 oldVersion := RunOf.start.push hmay 1 _
  have hyoung : RunOf symbolic nativeReaders anything 2 youngVersion :=
    (hold.push hmay 10000 _).restore 1 _ trivial
  exact (hyoung.push hmay 10000 _).prune (keepNewest 10001) trivial

theorem mergedBehind_run : RunOf symbolic nativeReaders anything 4 mergedBehind :=
  collectedOnce_run.push (fun _ c => by cases c <;> trivial) 10002 _

end AuruPm
