import AuruPm.Lib.Rely
import AuruPm.PushProtocol

/-!
# Clients of one provider

Any number of clients push to one provider folder, each with its own sidecar. Their pushes
interleave call by call, with retention passes and with restores that replace a sidecar. Two
history variables record which versions were ever `HEAD` and what the pushes reported.
-/

namespace AuruPm

set_option autoImplicit false

open SortedAssoc Threads

variable {Client Bytes Hash : Type}

/-- A version that became `HEAD`, and the push that advanced to it. -/
structure Published (Client Bytes Hash : Type) where
  push : Nat
  request : PushRequest Client Bytes Hash
  commit : Hash

structure Shared (Client Bytes Hash : Type) where
  provider : FilesystemProvider Bytes Hash
  sidecar : Client → Sidecar Hash
  /-- Every version that was ever `HEAD`, newest first. -/
  published : List (Published Client Bytes Hash)
  /-- What the pushes that ended reported. -/
  reports : List (Nat × PushOutcome Hash)

/-- Every version that was ever `HEAD`, newest first. -/
def Shared.versions (s : Shared Client Bytes Hash) : List Hash :=
  s.published.map Published.commit

/-- A freshly opened folder, and no sidecar yet. -/
def Shared.start : Shared Client Bytes Hash :=
  ⟨⟨.missing, .missing, [], []⟩, fun _ => {}, [], []⟩

/-- The arguments of a retention pass, and the circumstances it meets. -/
structure Pass (Hash : Type) where
  io : Faults Hash
  rule : RetentionRule
  roots : RetentionRoots Hash
  now : Nat
  grace : Nat

/-- What a run is restricted to: when a commit may be stored and `HEAD` advanced, which retention
passes there are, and which sidecars a restore may put in place. -/
structure Limits (Client Bytes Hash : Type) where
  store : Shared Client Bytes Hash → Prop := fun _ => True
  advance : Shared Client Bytes Hash → (fromHead : Option Hash) → (toHead : Hash) → Prop
  pass : Shared Client Bytes Hash → Pass Hash → Prop
  restore : Shared Client Bytes Hash → Sidecar Hash → Prop

/-- Only pushes touch the provider; sidecars are restored at will. -/
def pushesOnly : Limits Client Bytes Hash where
  advance _ _ _ := True
  pass _ _ := False
  restore _ _ := True

/-- Pushes, retention passes and restores of any kind. -/
def anything : Limits Client Bytes Hash where
  advance _ _ _ := True
  pass _ _ := True
  restore _ _ := True

section Calls
variable [DecidableEq Client] [DecidableEq Hash] (F : Formats Bytes Hash) (R : Readers Bytes Hash)

def Shared.save (s : Shared Client Bytes Hash) (client : Client) (sidecar : Sidecar Hash) :
    Shared Client Bytes Hash :=
  { s with sidecar := Function.update s.sidecar client sidecar }

def Shared.prune (s : Shared Client Bytes Hash) (pass : Pass Hash) : Shared Client Bytes Hash :=
  { s with
    provider :=
      (s.provider.pruneHistoryWithGrace F pass.io pass.rule pass.roots pass.now pass.grace).provider }

def Shared.publish (s : Shared Client Bytes Hash) (push : Nat)
    (request : PushRequest Client Bytes Hash) (commit : Hash)
    (provider : FilesystemProvider Bytes Hash) : Shared Client Bytes Hash :=
  { s with
    provider := provider
    published := ⟨push, request, commit⟩ :: s.published }

/-- One call of a push, when nothing fails underneath. -/
def Shared.perform (s : Shared Client Bytes Hash) (clock : Clock) (push : Nat)
    (request : PushRequest Client Bytes Hash) :
    (c : Call Bytes Hash) → Except Error (c.Answer × Shared Client Bytes Hash)
  | .now => .ok (clock, s)
  | .loadSidecar => .ok (s.sidecar request.client, s)
  | .saveSidecar sidecar => .ok ((), s.save request.client sidecar)
  | .getHead => (s.provider.getHead {}).map fun head => (head, s)
  | .advanceHead fromHead toHead =>
    (s.provider.advanceHead F {} fromHead toHead).map fun
      | (provider, .advanced) => (.advanced, s.publish push request toHead provider)
      | (_, .conflict current) => (.conflict current, s)
  | .putBlob hash bytes =>
    (s.provider.putBlob F clock.val hash bytes).map fun provider =>
      ((), { s with provider := provider })
  | .getBlob hash => (s.provider.getBlob F {} hash).map fun bytes => (bytes, s)
  | .putCommit commit =>
    (s.provider.putCommit F clock.val commit).map fun provider =>
      ((), { s with provider := provider })
  | .getCommit id => (s.provider.getCommit F {} id).map fun commit => (commit, s)

/-- A push under way. -/
structure Running (Client Bytes Hash : Type) where
  request : PushRequest Client Bytes Hash
  program : Push Bytes Hash (PushOutcome Hash)

/-- Whether a run is restricted at this call. -/
def Limits.Allow (limits : Limits Client Bytes Hash) (s : Shared Client Bytes Hash) :
    Call Bytes Hash → Prop
  | .putCommit _ => limits.store s
  | .advanceHead fromHead toHead => limits.advance s fromHead toHead
  | _ => True

/-- The next call of a push: it is answered, or it fails for a reason of the file system. -/
inductive Acts (limits : Limits Client Bytes Hash) (push : Nat) :
    Running Client Bytes Hash → Shared Client Bytes Hash → Running Client Bytes Hash →
      Shared Client Bytes Hash → Prop
  | answered {request : PushRequest Client Bytes Hash} {s s' : Shared Client Bytes Hash}
      {c : Call Bytes Hash} {next : Except Error c.Answer → Push Bytes Hash (PushOutcome Hash)}
      {clock : Clock} {answer : c.Answer} (hmay : limits.Allow s c)
      (h : s.perform F clock push request c = .ok (answer, s')) :
      Acts limits push ⟨request, .call c next⟩ s ⟨request, next (.ok answer)⟩ s'
  | failed {request : PushRequest Client Bytes Hash} {s : Shared Client Bytes Hash}
      {c : Call Bytes Hash} {next : Except Error c.Answer → Push Bytes Hash (PushOutcome Hash)}
      (e : Error) : Acts limits push ⟨request, .call c next⟩ s ⟨request, next (.error e)⟩ s

/-- The clients, their pushes and the retention passes. -/
def clients (limits : Limits Client Bytes Hash) :
    System (Shared Client Bytes Hash) Nat (Running Client Bytes Hash) where
  env s s' := (∃ pass, limits.pass s pass ∧ s' = s.prune F pass) ∨
    ∃ client sidecar, limits.restore s sidecar ∧ s' = s.save client sidecar
  begins _ _ p := ∃ request, p = ⟨request, Push.pushWithOptions F R request⟩
  acts := Acts F limits
  ends push p s s' := ∃ outcome, p.program = .done outcome ∧
    s' = { s with reports := (push, outcome) :: s.reports }

/-- The states of the runs within some limits. -/
abbrev Run (limits : Limits Client Bytes Hash) (s : Shared Client Bytes Hash) : Prop :=
  ∃ threads, (clients F R limits).Reachable .start ⟨s, threads⟩

/-! A push that runs alone. -/

/-- A call of a push with nothing in between, which may fail. -/
inductive AloneStep (push : Nat) (request : PushRequest Client Bytes Hash) :
    Shared Client Bytes Hash → (c : Call Bytes Hash) → Except Error c.Answer →
      Shared Client Bytes Hash → Prop
  | answered {s s' : Shared Client Bytes Hash} {c : Call Bytes Hash} (clock : Clock)
      {answer : c.Answer} (h : s.perform F clock push request c = .ok (answer, s')) :
      AloneStep push request s c (.ok answer) s'
  | failed {s : Shared Client Bytes Hash} {c : Call Bytes Hash} (e : Error) :
      AloneStep push request s c (.error e) s

/-- Runs a program to its end, and its outcome unless it fails. -/
def Shared.alone {α : Type} (s : Shared Client Bytes Hash) (clock : Clock) (push : Nat)
    (request : PushRequest Client Bytes Hash) :
    Push Bytes Hash α → Shared Client Bytes Hash × Except String α
  | .done a => (s, .ok a)
  | .fail e => (s, .error e)
  | .call c next =>
    match s.perform F clock push request c with
    | .ok (answer, s') => s'.alone clock push request (next (.ok answer))
    | .error e => s.alone clock push request (next (.error e))

/-- A whole push, with nothing in between. -/
def Shared.pushAlone (s : Shared Client Bytes Hash) (clock : Clock) (push : Nat)
    (request : PushRequest Client Bytes Hash) : Shared Client Bytes Hash :=
  match s.alone F clock push request (Push.pushWithOptions F R request) with
  | (s', .ok outcome) => { s' with reports := (push, outcome) :: s'.reports }
  | (s', .error _) => s'

variable {F R} {limits : Limits Client Bytes Hash}

/-- A run in which only the first `n` pushes have begun. -/
def RunOf (F : Formats Bytes Hash) (R : Readers Bytes Hash) (limits : Limits Client Bytes Hash)
    (n : Nat) (s : Shared Client Bytes Hash) : Prop :=
  ∃ threads, (clients F R limits).Reachable .start ⟨s, threads⟩ ∧
    ∀ push, n ≤ push → threads push = .waiting

theorem RunOf.run {n : Nat} {s : Shared Client Bytes Hash} (h : RunOf F R limits n s) :
    Run F R limits s := by
  obtain ⟨threads, hr, -⟩ := h
  exact ⟨threads, hr⟩

theorem RunOf.start : RunOf F R limits 0 (.start : Shared Client Bytes Hash) :=
  ⟨_, .start, fun _ _ => rfl⟩

theorem RunOf.prune {n : Nat} {s : Shared Client Bytes Hash} (h : RunOf F R limits n s)
    (pass : Pass Hash) (hpass : limits.pass s pass) : RunOf F R limits n (s.prune F pass) := by
  obtain ⟨threads, hr, hw⟩ := h
  exact ⟨threads, .step hr (.env (Or.inl ⟨pass, hpass, rfl⟩)), hw⟩

theorem RunOf.restore {n : Nat} {s : Shared Client Bytes Hash} (h : RunOf F R limits n s)
    (client : Client) (sidecar : Sidecar Hash) (hs : limits.restore s sidecar) :
    RunOf F R limits n (s.save client sidecar) := by
  obtain ⟨threads, hr, hw⟩ := h
  exact ⟨threads, .step hr (.env (Or.inr ⟨client, sidecar, hs, rfl⟩)), hw⟩

/-- Whether all the calls that a program makes when it runs alone pass a test. -/
def Shared.allCalls {α : Type} (F : Formats Bytes Hash)
    (test : Shared Client Bytes Hash → Call Bytes Hash → Bool) (s : Shared Client Bytes Hash)
    (clock : Clock) (push : Nat) (request : PushRequest Client Bytes Hash) :
    Push Bytes Hash α → Bool
  | .done _ => true
  | .fail _ => true
  | .call c next => test s c &&
    match s.perform F clock push request c with
    | .ok (answer, s') => s'.allCalls F test clock push request (next (.ok answer))
    | .error e => s.allCalls F test clock push request (next (.error e))

theorem Shared.allCalls_true {α : Type} (s : Shared Client Bytes Hash) (clock : Clock) (push : Nat)
    (request : PushRequest Client Bytes Hash) (program : Push Bytes Hash α) :
    s.allCalls F (fun _ _ => true) clock push request program = true := by
  induction program generalizing s with
  | done => rfl
  | fail => rfl
  | call c next ih =>
    simp only [allCalls, Bool.true_and]
    split <;> exact ih _ _

/-- What a program ends with when it runs alone is among its results. -/
theorem returns_alone {α : Type} {s : Shared Client Bytes Hash} {clock : Clock} {push : Nat}
    {request : PushRequest Client Bytes Hash} {x : Push Bytes Hash α} {a : α}
    (h : (s.alone F clock push request x).2 = .ok a) : x.Returns a := by
  induction x generalizing s with
  | done b => exact Except.ok.inj h
  | fail e => cases h
  | call c next ih =>
    simp only [Shared.alone] at h
    split at h
    · exact ⟨_, ih _ h⟩
    · exact ⟨_, ih _ h⟩

section Alone
variable {test : Shared Client Bytes Hash → Call Bytes Hash → Bool}

/-- What each call of a program that runs alone keeps true of the threads, the program does. -/
theorem alone_keeps
    (holds : World (Shared Client Bytes Hash) Nat (Running Client Bytes Hash) → Prop)
    {push : Nat} {request : PushRequest Client Bytes Hash} {clock : Clock}
    (hok : ∀ s threads c next answer s', holds ⟨s, threads⟩ →
      threads push = .running ⟨request, .call c next⟩ → test s c = true →
      s.perform F clock push request c = .ok (answer, s') →
      holds ⟨s', Function.update threads push (.running ⟨request, next (.ok answer)⟩)⟩)
    (herr : ∀ s threads c next e, holds ⟨s, threads⟩ →
      threads push = .running ⟨request, .call c next⟩ →
      holds ⟨s, Function.update threads push (.running ⟨request, next (.error e)⟩)⟩)
    {program : Push Bytes Hash (PushOutcome Hash)} {s : Shared Client Bytes Hash}
    {threads : Nat → Thread (Running Client Bytes Hash)} (h : holds ⟨s, threads⟩)
    (hpush : threads push = .running ⟨request, program⟩)
    (hall : s.allCalls F test clock push request program = true) :
    ∃ last, holds ⟨(s.alone F clock push request program).1,
        Function.update threads push (.running ⟨request, last⟩)⟩ ∧
      ∀ outcome, (s.alone F clock push request program).2 = .ok outcome → last = .done outcome := by
  induction program generalizing s threads with
  | done outcome =>
    refine ⟨.done outcome, ?_, fun outcome' h => by cases h; rfl⟩
    rw [← hpush, Function.update_eq_self]
    exact h
  | fail e =>
    refine ⟨.fail e, ?_, fun outcome' h => by cases h⟩
    rw [← hpush, Function.update_eq_self]
    exact h
  | call c next ih =>
    simp only [Shared.allCalls, Bool.and_eq_true] at hall
    obtain ⟨hc, hall⟩ := hall
    simp only [Shared.alone]
    split
    · rename_i answer s' hp
      rw [hp] at hall
      obtain ⟨last, hr, hlast⟩ := ih (.ok answer) (hok s threads c next answer s' h hpush hc hp)
        (Function.update_self ..) hall
      rw [Function.update_idem] at hr
      exact ⟨last, hr, hlast⟩
    · rename_i e hp
      rw [hp] at hall
      obtain ⟨last, hr, hlast⟩ := ih (.error e) (herr s threads c next e h hpush)
        (Function.update_self ..) hall
      rw [Function.update_idem] at hr
      exact ⟨last, hr, hlast⟩

/-- A running thread may run on alone. -/
theorem reachable_alone (htest : ∀ s c, test s c = true → limits.Allow s c) {push : Nat}
    {request : PushRequest Client Bytes Hash} (clock : Clock)
    {program : Push Bytes Hash (PushOutcome Hash)} {s : Shared Client Bytes Hash}
    {threads : Nat → Thread (Running Client Bytes Hash)}
    (h : (clients F R limits).Reachable .start ⟨s, threads⟩)
    (hpush : threads push = .running ⟨request, program⟩)
    (hall : s.allCalls F test clock push request program = true) :
    ∃ last, (clients F R limits).Reachable .start ⟨(s.alone F clock push request program).1,
        Function.update threads push (.running ⟨request, last⟩)⟩ ∧
      ∀ outcome, (s.alone F clock push request program).2 = .ok outcome → last = .done outcome :=
  alone_keeps ((clients F R limits).Reachable .start)
    (fun s _ c _ _ _ h hpush hc hp => h.acts hpush (.answered (htest s c hc) hp))
    (fun _ _ _ _ e h hpush => h.acts hpush (.failed e)) h hpush hall

/-- A push whose calls the limits allow may run alone. -/
theorem RunOf.pushWithin (htest : ∀ s c, test s c = true → limits.Allow s c) {n : Nat}
    {s : Shared Client Bytes Hash} (h : RunOf F R limits n s) (clock : Clock)
    (request : PushRequest Client Bytes Hash)
    (hall : s.allCalls F test clock n request (Push.pushWithOptions F R request) = true) :
    RunOf F R limits (n + 1) (s.pushAlone F R clock n request) := by
  obtain ⟨threads, hr, hw⟩ := h
  obtain ⟨last, hr', hlast⟩ := reachable_alone htest clock
    (hr.begins (hw n (Nat.le_refl n)) ⟨request, rfl⟩) (Function.update_self ..) hall
  rw [Function.update_idem] at hr'
  have hwait : ∀ t, ∀ push, n + 1 ≤ push → Function.update threads n t push = .waiting := by
    intro t push hpush
    rw [Function.update_of_ne (by omega)]
    exact hw push (by omega)
  unfold Shared.pushAlone
  split
  · rename_i s' outcome heq
    rw [heq] at hr' hlast
    obtain rfl := hlast outcome rfl
    have hend := hr'.ends (Function.update_self ..) ⟨outcome, rfl, rfl⟩
    rw [Function.update_idem] at hend
    exact ⟨_, hend, hwait _⟩
  · rename_i s' e heq
    rw [heq] at hr'
    exact ⟨_, hr', hwait _⟩

theorem RunOf.push (hmay : ∀ s c, limits.Allow s c) {n : Nat} {s : Shared Client Bytes Hash}
    (h : RunOf F R limits n s) (clock : Clock) (request : PushRequest Client Bytes Hash) :
    RunOf F R limits (n + 1) (s.pushAlone F R clock n request) :=
  h.pushWithin (fun s c _ => hmay s c) clock request (Shared.allCalls_true s clock n request _)

end Alone

end Calls

end AuruPm
