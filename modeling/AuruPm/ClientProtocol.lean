import AuruPm.World

/-!
# Clients by the phases of their pushes

The same system with every running push replaced by its phase. `Moves` says once what a call
can do to the shared state and to the phase; the invariants of runs are proved over it. Every
run of the programs is a run of the phases.
-/

namespace AuruPm

set_option autoImplicit false

open SortedAssoc Threads

variable {Client Bytes Hash : Type} [DecidableEq Client] [DecidableEq Hash]

section Moves
variable (F : Formats Bytes Hash) (R : Readers Bytes Hash) (limits : Limits Client Bytes Hash)

/-- What one call of a push can do. -/
inductive Moves (push : Nat) (request : PushRequest Client Bytes Hash) :
    Phase Bytes Hash → Shared Client Bytes Hash → Phase Bytes Hash →
      Shared Client Bytes Hash → Prop
  | stay (phase : Phase Bytes Hash) (s : Shared Client Bytes Hash) :
      Moves push request phase s phase s
  | seeHead {s : Shared Client Bytes Hash} {head : Option Hash}
      (h : s.provider.readHead {} = .ok head) : Moves push request .started s (.sawHead head) s
  | begin (s : Shared Client Bytes Hash) (head : Option Hash) :
      Moves push request (.sawHead head) s
        (.working ⟨head, (s.sidecar request.client).localHead, s.sidecar request.client, [], []⟩) s
  | load (w : Working Bytes Hash) (s : Shared Client Bytes Hash) :
      Moves push request (.working w) s (.working { w with sidecar := s.sidecar request.client }) s
  | save {w : Working Bytes Hash} (s : Shared Client Bytes Hash) {sidecar : Sidecar Hash}
      (h : sidecar.localHead = w.sidecar.localHead) :
      Moves push request (.working w) s (.working w) (s.save request.client sidecar)
  | putBlob {w : Working Bytes Hash} {s : Shared Client Bytes Hash} {clock : Clock} {hash : Hash}
      {bytes : Bytes} {p : FilesystemProvider Bytes Hash}
      (h : s.provider.putBlob F clock.val hash bytes = .ok p) :
      Moves push request (.working w) s (.working { w with blobs := (hash, bytes) :: w.blobs })
        { s with provider := p }
  | getBlob {w : Working Bytes Hash} {s : Shared Client Bytes Hash} {hash : Hash} {bytes : Bytes}
      (h : s.provider.getBlob F {} hash = .ok bytes) :
      Moves push request (.working w) s (.working { w with blobs := (hash, bytes) :: w.blobs }) s
  | getCommit {w : Working Bytes Hash} {s : Shared Client Bytes Hash} {id : Hash}
      {commit : Commit Hash} (h : s.provider.readCommit F {} id = .ok commit) :
      Moves push request (.working w) s (.working { w with commits := (id, commit) :: w.commits }) s
  | putCommit {w : Working Bytes Hash} {s : Shared Client Bytes Hash} {clock : Clock}
      {fromHead : Option Hash} {commit : Commit Hash} {p : FilesystemProvider Bytes Hash}
      (hb : Builds F R request w fromHead commit) (hmay : limits.store s)
      (h : s.provider.putCommit F clock.val commit = .ok p) :
      Moves push request (.working w) s (.stored w commit) { s with provider := p }
  | advance {w : Working Bytes Hash} {s : Shared Client Bytes Hash} {fromHead : Option Hash}
      {commit : Commit Hash} {p : FilesystemProvider Bytes Hash}
      (hb : Builds F R request w fromHead commit)
      (hmay : limits.advance s fromHead commit.id)
      (h : s.provider.advanceHead F {} fromHead commit.id = .ok (p, .advanced)) :
      Moves push request (.stored w commit) s (.advanced w commit)
        (s.publish push request commit.id p)
  | record {w : Working Bytes Hash} (s : Shared Client Bytes Hash) {commit : Commit Hash}
      {sidecar : Sidecar Hash} (h : sidecar.localHead = some commit.id) :
      Moves push request (.advanced w commit) s (.advanced w commit)
        (s.save request.client sidecar)

/-- The clients, with phases in place of programs. -/
def phases : System (Shared Client Bytes Hash) Nat
    (PushRequest Client Bytes Hash × Phase Bytes Hash) where
  env := (clients F R limits).env
  begins _ _ q := q.2 = .started
  acts push q s q' s' := q'.1 = q.1 ∧ Moves F R limits push q.1 q.2 s q'.2 s'
  ends push q s s' := ∃ outcome, q.2.Ends outcome ∧
    s' = { s with reports := (push, outcome) :: s.reports }

end Moves

variable {F : Formats Bytes Hash} {R : Readers Bytes Hash} {limits : Limits Client Bytes Hash}
variable {s s' : Shared Client Bytes Hash} {request : PushRequest Client Bytes Hash}
variable {phase : Phase Bytes Hash}

/-- A call that a phase allows is one of the moves. -/
theorem moves_of_perform {clock : Clock} {push : Nat} {c : Call Bytes Hash} {answer : c.Answer}
    (ha : phase.Allows F R request c) (hmay : limits.Allow s c)
    (h : s.perform F clock push request c = .ok (answer, s')) :
    Moves F R limits push request phase s (phase.next c answer) s' := by
  cases c with
  | now =>
    cases h
    cases phase <;> first | exact False.elim ha | exact .stay _ s
  | loadSidecar =>
    cases h
    cases phase with
    | sawHead head => exact .begin s head
    | working w => exact .load w s
    | advanced w commit => exact .stay _ s
    | started => exact False.elim ha
    | stored => exact False.elim ha
  | saveSidecar sidecar =>
    cases h
    cases phase with
    | working w => exact .save s ha
    | advanced w commit => exact .record s ha
    | started => exact False.elim ha
    | sawHead => exact False.elim ha
    | stored => exact False.elim ha
  | getHead =>
    obtain ⟨head, hr, heq⟩ := map_ok_iff.mp h
    cases heq
    cases phase with
    | started => exact .seeHead hr
    | _ => exact False.elim ha
  | advanceHead fromHead toHead =>
    cases phase with
    | stored w commit =>
      obtain ⟨rfl, hb⟩ := ha
      obtain ⟨⟨p, result⟩, hr, heq⟩ := map_ok_iff.mp h
      cases result with
      | advanced =>
        cases heq
        exact .advance hb hmay hr
      | conflict current =>
        cases heq
        exact .stay _ s
    | _ => exact False.elim ha
  | putBlob hash bytes =>
    obtain ⟨p, hr, heq⟩ := map_ok_iff.mp h
    cases heq
    cases phase with
    | working w => exact .putBlob hr
    | _ => exact False.elim ha
  | getBlob hash =>
    obtain ⟨bytes, hr, heq⟩ := map_ok_iff.mp h
    cases heq
    cases phase with
    | working w => exact .getBlob hr
    | _ => exact False.elim ha
  | putCommit commit =>
    obtain ⟨p, hr, heq⟩ := map_ok_iff.mp h
    cases heq
    cases phase with
    | working w =>
      obtain ⟨fromHead, hb⟩ := ha
      exact .putCommit hb hmay hr
    | _ => exact False.elim ha
  | getCommit id =>
    obtain ⟨commit, hr, heq⟩ := map_ok_iff.mp h
    cases heq
    cases phase with
    | working w => exact .getCommit hr
    | _ => exact False.elim ha

/-- A program stands for a phase from which it keeps to the protocol. -/
def InPhase (F : Formats Bytes Hash) (R : Readers Bytes Hash) (p : Running Client Bytes Hash)
    (q : PushRequest Client Bytes Hash × Phase Bytes Hash) : Prop :=
  p.request = q.1 ∧ Keeps F R p.request Phase.Ends p.program q.2

/-- The phases simulate the programs. -/
theorem clients_simulated (F : Formats Bytes Hash) (R : Readers Bytes Hash)
    (limits : Limits Client Bytes Hash) :
    Simulates (clients F R limits) (phases F R limits) (InPhase F R) where
  env _ _ h := h
  begins push s p := by
    rintro ⟨request, rfl⟩
    exact ⟨(request, .started), rfl, rfl, keeps_pushWithOptions F R request⟩
  acts := by
    rintro push p ⟨_, phase⟩ s p' s' ⟨rfl, hk⟩ h
    cases h with
    | answered hmay h =>
      obtain ⟨ha, hok, -⟩ := hk
      exact ⟨(_, phase.next _ _), ⟨rfl, moves_of_perform ha hmay h⟩, rfl, hok _⟩
    | failed e => exact ⟨(_, phase), ⟨rfl, .stay phase s⟩, rfl, hk.2.2 e⟩
  ends := by
    rintro push p ⟨_, phase⟩ s s' ⟨rfl, hk⟩ ⟨outcome, hdone, rfl⟩
    rw [hdone] at hk
    exact ⟨outcome, hk, rfl⟩

/-- What a proof outline for the phases shows holds throughout the runs. -/
theorem Run.invariant {grows : Shared Client Bytes Hash → Shared Client Bytes Hash → Prop}
    {inv : Shared Client Bytes Hash → Prop}
    {knows : Nat → PushRequest Client Bytes Hash × Phase Bytes Hash → Shared Client Bytes Hash → Prop}
    (ho : Outline (phases F R limits) grows inv knows) (hstart : inv .start)
    (h : Run F R limits s) : inv s := by
  obtain ⟨threads, hr⟩ := h
  obtain ⟨threads', hr', -⟩ := (clients_simulated F R limits).reachable hr
  exact (ho.reachable hstart hr').1

end AuruPm
