import AuruPm.DeviceSignIn

/-!
# The blocking device flow of the Java library

`OAuth.java` tests the deadline before it sleeps. Its clock is a `long` of nanoseconds from any
origin, which wraps around, and a duration that does not fit a `long` of milliseconds or
nanoseconds throws.
-/

namespace AuruPm

set_option autoImplicit false

open Polling CodeUnits OAuth

namespace Sdk.Java

/-- What the library throws, or what a standard library call does. -/
inductive SignInFailure where
  | auru (code : ErrorCode) (message : List Nat)
  | thrown (thrown : Thrown)
  | arithmetic
  deriving DecidableEq

structure RefreshableToken where
  token : List Nat
  tokenType : List Nat
  expiresIn : Option Int64
  scope : Option (List Nat)
  refreshToken : Option (List Nat)
  deriving DecidableEq

/-- `retryAfter` is in seconds. -/
inductive DevicePollResult where
  | pending (retryAfter : Int)
  | authorized (token : RefreshableToken)
  deriving DecidableEq

/-- A response, or the text of the exception that reports that there is none. -/
abbrev TokenAnswer := Except (List Nat) (Response (List Nat))

/-- Whether a number fits a `long`. -/
def fitsLong (n : Int) : Bool := -2 ^ 63 ≤ n && n < 2 ^ 63

theorem fitsLong_iff {n : Int} : fitsLong n = true ↔ -2 ^ 63 ≤ n ∧ n < 2 ^ 63 := by
  rw [fitsLong, Bool.and_eq_true, decide_eq_true_eq, decide_eq_true_eq]

section Poll
variable {D : Type} (digit : Nat → Option Nat) (parseDouble : List Nat → D)
  (decode : List Nat → List Nat)

def optMember (payload : JsonValue (List Nat) D) (name : String) :
    Except SignInFailure (Option (List Nat)) :=
  (optText payload name).mapError .thrown

def readToken (payload : JsonValue (List Nat) D) : Except SignInFailure RefreshableToken := do
  match ← optMember payload "access_token" with
  | none =>
    throw (.auru .unauthorized (strings.literal "the token response carried no access_token"))
  | some token =>
    let expiresIn := (find strings payload "expires_in").bind asInteger
    let tokenType ← optMember payload "token_type"
    let scope ← optMember payload "scope"
    let refreshToken ← optMember payload "refresh_token"
    return ⟨token, tokenType.getD (strings.literal "bearer"), expiresIn, scope, refreshToken⟩

def failureDetail (payload : JsonValue (List Nat) D) (status : Int) :
    Except SignInFailure (List Nat) := do
  match ← optMember payload "error_description" with
  | some description => return description
  | none =>
    match ← optMember payload "error" with
    | some error => return error
    | none => return strings.ofText ("HTTP ".toList ++ (toString status).toList)

def deviceFailed (detail : List Nat) : SignInFailure :=
  .auru .unauthorized (strings.literal "device authorization failed: " ++ detail)

def pollDeviceAuthorization (tokenEndpoint : List Nat) (answer : TokenAnswer) (interval : Int) :
    Except SignInFailure DevicePollResult :=
  match answer with
  | .error cause =>
    .error (.auru .internal
      (strings.literal "cannot reach " ++ tokenEndpoint ++ strings.literal ": " ++ cause))
  | .ok response => do
    let payload := bodyOf digit parseDouble decode response
    match ← optMember payload "error" with
    | some code =>
      if code = strings.literal "authorization_pending" then return .pending interval
      else if code = strings.literal "slow_down" then
        if fitsLong (interval + 5) then return .pending (interval + 5) else throw .arithmetic
      else if code = strings.literal "access_denied" then
        throw (.auru .unauthorized (strings.literal "the sign-in request was refused"))
      else if code = strings.literal "expired_token" then
        throw (.auru .unauthorized
          (strings.literal "the sign-in code expired. Start again for a new one."))
      else
        let description ← optMember payload "error_description"
        throw (deviceFailed (description.getD code))
    | none =>
      if response.status.tdiv 100 ≠ 2 then
        let detail ← failureDetail payload response.status
        throw (deviceFailed detail)
      else
        let token ← readToken payload
        return .authorized token

/-- Whether an answer lets the flow go on, and if so whether it asks to slow down. -/
def asksAgain (answer : TokenAnswer) : Option Bool :=
  match answer with
  | .error _ => none
  | .ok response =>
    match optMember (bodyOf digit parseDouble decode response) "error" with
    | .ok (some code) =>
      if code = strings.literal "authorization_pending" then some false
      else if code = strings.literal "slow_down" then some true
      else none
    | _ => none

/-! The blocking flow. -/

/-- Both in whole seconds. -/
structure DeviceAuthorization where
  expiresIn : Int64
  interval : Int64

structure JavaAround extends Around TokenAnswer where
  /-- What `System.nanoTime` reads when the flow starts. -/
  origin : Int
  /-- Whether a sleep is interrupted. -/
  interrupted : Nat → Bool

def wrapLong (n : Int) : Int := n.bmod (2 ^ 64)

def nanoTime (origin : Int) (now : Nat) : Int := wrapLong (origin + now)

def nanos (seconds : Int) : Int := seconds * 10 ^ 9

def millis (seconds : Int) : Int := seconds * 1000

structure FlowState where
  now : Nat
  interval : Int
  rounds : Nat
  deriving DecidableEq

/-- What a flow ends with. -/
abbrev SignIn := Except SignInFailure RefreshableToken

def completeRound (tokenEndpoint : List Nat) (around : JavaAround) (deadline : Int)
    (s : FlowState) : List (Output SignIn) × Option FlowState :=
  if deadline ≤ nanoTime around.origin s.now then
    ([.report (.error (.auru .unauthorized
      (strings.literal "the sign-in code expired. Start again for a new one.")))], none)
  else if fitsLong (millis s.interval) = false then ([.report (.error .arithmetic)], none)
  else if s.interval < 0 then ([.report (.error (.thrown .illegalArgument))], none)
  else if around.interrupted s.rounds then
    ([.report (.error (.auru .internal
      (strings.literal "interrupted while waiting for sign-in")))], none)
  else
    let woken := s.now + (nanos s.interval).toNat + around.oversleep s.rounds
    let answer := around.answer s.rounds
    let sent := ⟨woken, (asksAgain digit parseDouble decode answer).getD false⟩
    match pollDeviceAuthorization digit parseDouble decode tokenEndpoint answer s.interval with
    | .error failure => ([.poll sent, .report (.error failure)], none)
    | .ok (.authorized token) => ([.poll sent, .report (.ok token)], none)
    | .ok (.pending retryAfter) =>
      ([.poll sent], some ⟨woken + around.latency s.rounds, retryAfter, s.rounds + 1⟩)

def completeStart (authorization : DeviceAuthorization) : Config SignIn FlowState :=
  if fitsLong (nanos authorization.expiresIn.toInt) = false then
    ⟨[.report (.error .arithmetic)], none⟩
  else ⟨[], some ⟨0, authorization.interval.toInt, 0⟩⟩

def deadlineOf (around : JavaAround) (authorization : DeviceAuthorization) : Int :=
  wrapLong (nanoTime around.origin 0 + nanos authorization.expiresIn.toInt)

/-- So many rounds of the flow, with times from its start on. -/
def completeDeviceAuthorizationWithRefresh (tokenEndpoint : List Nat)
    (authorization : DeviceAuthorization) (around : JavaAround) :
    Nat → Config SignIn FlowState :=
  run (completeRound digit parseDouble decode tokenEndpoint around (deadlineOf around authorization))
    (completeStart authorization)

/-! What a round does. -/

/-- The round is early enough to sleep, and the sleep comes to its end. -/
structure FlowState.Sleeps (around : JavaAround) (deadline : Int) (s : FlowState) : Prop where
  early : nanoTime around.origin s.now < deadline
  fits : fitsLong (millis s.interval) = true
  forward : 0 ≤ s.interval
  quiet : around.interrupted s.rounds = false

def FlowState.woken (around : JavaAround) (s : FlowState) : Nat :=
  s.now + (nanos s.interval).toNat + around.oversleep s.rounds

def FlowState.next (around : JavaAround) (slower : Bool) (s : FlowState) : FlowState :=
  ⟨s.woken around + around.latency s.rounds, s.interval + if slower then 5 else 0, s.rounds + 1⟩

/-- What the answer to the poll of a round asks for. -/
def asks (around : JavaAround) (n : Nat) : Option Bool :=
  asksAgain digit parseDouble decode (around.answer n)

inductive CompleteGoes (around : JavaAround) (deadline : Int) (s : FlowState) :
    List (Output SignIn) × Option FlowState → Prop
  | idle (awake : ¬ s.Sleeps around deadline) (result : SignIn) :
      CompleteGoes around deadline s ([.report result], none)
  | stop (sleeps : s.Sleeps around deadline)
      (asked : asks digit parseDouble decode around s.rounds = none) (result : SignIn) :
      CompleteGoes around deadline s ([.poll ⟨s.woken around, false⟩, .report result], none)
  | again (sleeps : s.Sleeps around deadline) (slower : Bool)
      (asked : asks digit parseDouble decode around s.rounds = some slower) :
      CompleteGoes around deadline s
        ([.poll ⟨s.woken around, slower⟩], some (s.next around slower))

variable {digit parseDouble decode}
variable {tokenEndpoint : List Nat} {answer : TokenAnswer} {interval : Int} {around : JavaAround}
  {deadline : Int}

theorem fitsLong_add {interval : Int} (hforward : 0 ≤ interval)
    (hfits : fitsLong (millis interval) = true) : fitsLong (interval + 5) = true := by
  rw [fitsLong_iff, millis] at hfits
  rw [fitsLong_iff]
  omega

/-- An answer that asks again is passed on as a new wait. -/
theorem poll_of_asks {slower : Bool} (hfits : fitsLong (interval + 5) = true)
    (h : asksAgain digit parseDouble decode answer = some slower) :
    pollDeviceAuthorization digit parseDouble decode tokenEndpoint answer interval =
      .ok (.pending (interval + if slower then 5 else 0)) := by
  cases answer with
  | error => cases h
  | ok response =>
    simp only [asksAgain] at h
    split at h
    · rename_i code hcode
      simp only [pollDeviceAuthorization, hcode]
      split at h
      · rename_i hpending
        cases h
        simp [hpending]
        rfl
      · rename_i hpending
        split at h
        · rename_i hslow
          cases h
          simp [hslow, hfits]
          rfl
        · cases h
    · cases h

theorem poll_of_not_asks (h : asksAgain digit parseDouble decode answer = none) (retryAfter : Int) :
    pollDeviceAuthorization digit parseDouble decode tokenEndpoint answer interval ≠
      .ok (.pending retryAfter) := by
  intro hpoll
  cases answer with
  | error => cases hpoll
  | ok response =>
    obtain ⟨error, herror, hpoll⟩ := bind_ok_iff.mp hpoll
    cases error with
    | none =>
      simp only at hpoll
      split at hpoll
      · obtain ⟨_, _, hthrow⟩ := bind_ok_iff.mp hpoll
        cases hthrow
      · obtain ⟨_, _, hdone⟩ := bind_ok_iff.mp hpoll
        cases hdone
    | some code =>
      simp only [asksAgain, herror] at h
      simp only at hpoll
      split at hpoll
      · rename_i hpending
        rw [if_pos hpending] at h
        cases h
      · rename_i hpending
        rw [if_neg hpending] at h
        split at hpoll
        · rename_i hslow
          rw [if_pos hslow] at h
          cases h
        · split at hpoll
          · cases hpoll
          · split at hpoll
            · cases hpoll
            · obtain ⟨_, _, hthrow⟩ := bind_ok_iff.mp hpoll
              cases hthrow

variable (digit parseDouble decode tokenEndpoint around deadline) in
theorem completeRound_goes (s : FlowState) :
    CompleteGoes digit parseDouble decode around deadline s
      (completeRound digit parseDouble decode tokenEndpoint around deadline s) := by
  unfold completeRound
  split
  · rename_i hlate
    exact .idle (fun h => absurd h.early (Int.not_lt.mpr hlate)) _
  · rename_i hearly
    split
    · rename_i hfits
      exact .idle (fun h => by rw [h.fits] at hfits; cases hfits) _
    · rename_i hfits
      split
      · rename_i hnegative
        exact .idle (fun h => absurd hnegative (Int.not_lt.mpr h.forward)) _
      · rename_i hnegative
        split
        · rename_i hinterrupted
          exact .idle (fun h => by rw [h.quiet] at hinterrupted; cases hinterrupted) _
        · rename_i hquiet
          have hsleeps : s.Sleeps around deadline :=
            ⟨Int.not_le.mp hearly, Bool.eq_true_of_not_eq_false hfits, Int.not_lt.mp hnegative,
              Bool.eq_false_iff.mpr hquiet⟩
          have hlong := fitsLong_add hsleeps.forward hsleeps.fits
          cases hasked : asksAgain digit parseDouble decode (around.answer s.rounds) with
          | some slower =>
            simp only [poll_of_asks hlong hasked, hasked, Option.getD_some]
            exact .again hsleeps slower hasked
          | none =>
            have hnot : ∀ retryAfter, pollDeviceAuthorization digit parseDouble decode tokenEndpoint
                (around.answer s.rounds) s.interval ≠ .ok (.pending retryAfter) :=
              poll_of_not_asks hasked
            simp only [hasked, Option.getD_none]
            split
            · exact .stop hsleeps hasked _
            · exact .stop hsleeps hasked _
            · rename_i retryAfter hpending
              exact absurd hpending (hnot retryAfter)


/-! The schedule. -/

section Schedule
variable (around) (asked : Nat → Option Bool) (authorization : DeviceAuthorization)

/-- Where a flow that nothing stops is after so many rounds. -/
def stateAt : Nat → FlowState
  | 0 => ⟨0, authorization.interval.toInt, 0⟩
  | n + 1 => (stateAt n).next around ((asked n).getD false)

def SleepsAt (n : Nat) : Prop :=
  (stateAt around asked authorization n).Sleeps around (deadlineOf around authorization)

/-- Every round before slept, and its answer let the flow go on. -/
def Went (n : Nat) : Prop :=
  fitsLong (nanos authorization.expiresIn.toInt) = true ∧
    ∀ k < n, SleepsAt around asked authorization k ∧ (asked k).isSome

/-- The flow comes to this round's sleep and through it. -/
def Begun (n : Nat) : Prop := Went around asked authorization n ∧ SleepsAt around asked authorization n

def wokenAt (n : Nat) : Nat := (stateAt around asked authorization n).woken around

def lifetime : Nat := (nanos authorization.expiresIn.toInt).toNat

/-- Every sleep that begins before the flow takes the lifetime for over ends before it is over, and
a flow that does not wait at all comes to a round that stops it. -/
structure SleepsFit : Prop where
  inTime : ∀ n, Begun around asked authorization n →
    wokenAt around asked authorization n < lifetime authorization
  stops : authorization.interval = 0 → ∃ n, ¬ Begun around asked authorization n

variable {around asked authorization}

theorem stateAt_rounds (n : Nat) : (stateAt around asked authorization n).rounds = n := by
  induction n with
  | zero => rfl
  | succ n ih =>
    rw [stateAt, FlowState.next]
    exact congrArg (· + 1) ih

theorem Went.succ {n : Nat} {slower : Bool} (h : Went around asked authorization n)
    (hsleeps : SleepsAt around asked authorization n) (hasked : asked n = some slower) :
    Went around asked authorization (n + 1) := by
  refine ⟨h.1, fun k hk => ?_⟩
  rcases Nat.lt_succ_iff_lt_or_eq.mp hk with hk | rfl
  · exact h.2 k hk
  · exact ⟨hsleeps, by rw [hasked]; rfl⟩

/-- A flow that waits and never stops outlasts every lifetime. -/
theorem not_all_begun (hinterval : 0 < authorization.interval.toInt)
    (hfit : ∀ n, Begun around asked authorization n →
      wokenAt around asked authorization n < lifetime authorization) :
    ∃ n, ¬ Begun around asked authorization n := by
  apply Classical.byContradiction
  intro hnone
  have hbegun : ∀ n, Begun around asked authorization n :=
    fun n => Classical.not_not.mp fun h => hnone ⟨n, h⟩
  have hgrows : ∀ n, n ≤ (stateAt around asked authorization n).now ∧
      0 < (stateAt around asked authorization n).interval := by
    intro n
    induction n with
    | zero => exact ⟨Nat.zero_le _, hinterval⟩
    | succ n ih =>
      simp only [stateAt, FlowState.next, FlowState.woken, nanos]
      obtain ⟨hnow, hpositive⟩ := ih
      constructor
      · omega
      · split <;> omega
  have hlate := hfit (lifetime authorization) (hbegun _)
  have hnow := (hgrows (lifetime authorization)).1
  simp only [wokenAt, FlowState.woken] at hlate
  omega

end Schedule

/-! Runs. -/

section Runs
variable {authorization : DeviceAuthorization}

/-- What the flow knows between two rounds. -/
structure FlowKnows (around : JavaAround) (asked : Nat → Option Bool)
    (authorization : DeviceAuthorization) (outputs : List (Output SignIn)) (s : FlowState) :
    Prop where
  state : s = stateAt around asked authorization s.rounds
  went : Went around asked authorization s.rounds
  kept : Polling.Kept (authorization.interval.toInt.toNat * second) (5 * second) (polls outputs) s.now
    (nanos s.interval).toNat
  sent : ∀ p ∈ polls outputs, ∃ n, Begun around asked authorization n ∧
    p.sent = wokenAt around asked authorization n
  silent : ∀ result, .report result ∉ outputs

theorem FlowKnows.begun {asked : Nat → Option Bool} {outputs : List (Output SignIn)} {s : FlowState}
    (h : FlowKnows around asked authorization outputs s)
    (hsleeps : s.Sleeps around (deadlineOf around authorization)) :
    Begun around asked authorization s.rounds ∧
      s.woken around = wokenAt around asked authorization s.rounds := by
  have hstate := h.state
  refine ⟨⟨h.went, ?_⟩, ?_⟩
  · rw [SleepsAt, ← hstate]
    exact hsleeps
  · rw [wokenAt, ← hstate]

theorem FlowKnows.polled {asked : Nat → Option Bool} {outputs : List (Output SignIn)} {s : FlowState}
    (h : FlowKnows around asked authorization outputs s) (slower : Bool)
    (hsleeps : s.Sleeps around (deadlineOf around authorization)) :
    Polling.Kept (authorization.interval.toInt.toNat * second) (5 * second)
        (polls outputs ++ [⟨s.woken around, slower⟩]) (s.next around slower).now
        (nanos (s.next around slower).interval).toNat ∧
      ∀ p ∈ polls outputs ++ [⟨s.woken around, slower⟩], ∃ n,
        Begun around asked authorization n ∧ p.sent = wokenAt around asked authorization n := by
  obtain ⟨hbegun, hwoken⟩ := h.begun hsleeps
  constructor
  · have hlater : s.woken around ≤ (s.next around slower).now := Nat.le_add_right _ _
    have hkept := h.kept.poll (q := ⟨s.woken around, slower⟩) (Nat.le_add_right _ _) hlater
    have hdue : (nanos (s.next around slower).interval).toNat =
        (nanos s.interval).toNat + if slower then 5 * second else 0 := by
      have hforward := hsleeps.forward
      cases slower with
      | false => simp [FlowState.next]
      | true =>
        simp only [FlowState.next, nanos, second, if_true]
        omega
    rwa [hdue]
  · intro p hp
    rcases List.mem_append.mp hp with hp | hp
    · exact h.sent p hp
    · rw [List.mem_singleton.mp hp]
      exact ⟨s.rounds, hbegun, hwoken⟩

theorem FlowKnows.again {outputs : List (Output SignIn)} {s s' : FlowState}
    (h : FlowKnows around (asks digit parseDouble decode around) authorization outputs s)
    {result : List (Output SignIn) × Option FlowState}
    (hround : CompleteGoes digit parseDouble decode around (deadlineOf around authorization) s result)
    (hgoes : result.2 = some s') :
    FlowKnows around (asks digit parseDouble decode around) authorization (outputs ++ result.1) s' := by
  cases hround with
  | idle | stop => cases hgoes
  | again hsleeps slower hasked =>
    cases hgoes
    obtain ⟨hkept, hsent⟩ := h.polled slower hsleeps
    obtain ⟨hbegun, _⟩ := h.begun hsleeps
    have hpolls : polls (outputs ++ [Output.poll (E := SignIn) ⟨s.woken around, slower⟩]) =
        polls outputs ++ [⟨s.woken around, slower⟩] := by
      rw [polls_append, polls_cons_poll, polls_nil]
    refine ⟨?_, hbegun.1.succ hbegun.2 hasked, ?_, ?_, ?_⟩
    · have hnext : (s.next around slower).rounds = s.rounds + 1 := rfl
      rw [hnext, stateAt, hasked, ← h.state]
      rfl
    · rw [hpolls]
      exact hkept
    · rw [hpolls]
      exact hsent
    · intro told htold
      rcases List.mem_append.mp htold with htold | htold
      · exact h.silent told htold
      · simp at htold

theorem FlowKnows.polls_round {outputs : List (Output SignIn)} {s : FlowState}
    (h : FlowKnows around (asks digit parseDouble decode around) authorization outputs s)
    {result : List (Output SignIn) × Option FlowState}
    (hround : CompleteGoes digit parseDouble decode around (deadlineOf around authorization) s result) :
    Paced (authorization.interval.toInt.toNat * second) (5 * second) (polls (outputs ++ result.1)) ∧
      ∀ p ∈ polls (outputs ++ result.1), ∃ n,
        Begun around (asks digit parseDouble decode around) authorization n ∧
          p.sent = wokenAt around (asks digit parseDouble decode around) authorization n := by
  cases hround with
  | idle => simpa using ⟨h.kept.paced, h.sent⟩
  | stop hsleeps =>
    obtain ⟨hkept, hsent⟩ := h.polled false hsleeps
    rw [polls_append, polls_cons_poll, polls_cons_report, polls_nil]
    exact ⟨hkept.paced, hsent⟩
  | again hsleeps slower =>
    obtain ⟨hkept, hsent⟩ := h.polled slower hsleeps
    rw [polls_append, polls_cons_poll, polls_nil]
    exact ⟨hkept.paced, hsent⟩

theorem FlowKnows.endsOnce {asked : Nat → Option Bool} {outputs : List (Output SignIn)} {s : FlowState}
    (h : FlowKnows around asked authorization outputs s)
    {result : List (Output SignIn) × Option FlowState}
    (hround : CompleteGoes digit parseDouble decode around (deadlineOf around authorization) s result)
    (hstops : result.2 = none) : EndsOnce (fun _ => True) (outputs ++ result.1) := by
  cases hround with
  | idle _ last => exact ⟨outputs, last, rfl, trivial, fun told htold => absurd htold (h.silent told)⟩
  | stop _ _ last =>
    refine ⟨outputs ++ [.poll ⟨s.woken around, false⟩], last, ?_, trivial, fun told htold => ?_⟩
    · rw [List.append_assoc]
      rfl
    · exact absurd (by simpa using htold) (h.silent told)
  | again => cases hstops

variable (digit parseDouble decode tokenEndpoint authorization around)

/-- The start of a flow whose lifetime fits a `long` of nanoseconds. -/
theorem completeStart_of_fits (hfits : fitsLong (nanos authorization.expiresIn.toInt) = true) :
    completeStart authorization = ⟨[], some ⟨0, authorization.interval.toInt, 0⟩⟩ := by
  rw [completeStart, if_neg (by rw [hfits]; exact Bool.noConfusion)]

theorem flow_knows_start (s : FlowState) (hs : (completeStart authorization).state = some s) :
    FlowKnows around (asks digit parseDouble decode around) authorization
      (completeStart authorization).outputs s := by
  cases hfits : fitsLong (nanos authorization.expiresIn.toInt) with
  | false =>
    rw [completeStart, if_pos hfits] at hs
    cases hs
  | true =>
    rw [completeStart_of_fits authorization hfits] at hs ⊢
    cases hs
    refine ⟨rfl, ⟨hfits, fun k hk => absurd hk (Nat.not_lt_zero k)⟩, ?_, ?_, ?_⟩
    · have hdue : (nanos authorization.interval.toInt).toNat =
          authorization.interval.toInt.toNat * second := by
        simp only [nanos, second]
        omega
      rw [hdue]
      exact Polling.Kept.nil _ _ _
    · intro p hp
      cases hp
    · intro result hresult
      cases hresult

theorem flow_knows (n : Nat) (s : FlowState)
    (h : (completeDeviceAuthorizationWithRefresh digit parseDouble decode tokenEndpoint authorization
      around n).state = some s) :
    FlowKnows around (asks digit parseDouble decode around) authorization
      (completeDeviceAuthorizationWithRefresh digit parseDouble decode tokenEndpoint authorization
        around n).outputs s := by
  refine run_invariant ?_ (fun outputs s s' h hs' => ?_) n s h
  · exact flow_knows_start digit parseDouble decode around authorization
  · exact h.again (completeRound_goes _ _ _ _ _ _ s) hs'

/-- One more round of a flow that goes on. -/
theorem flow_succ {n : Nat} {s : FlowState}
    (hs : (completeDeviceAuthorizationWithRefresh digit parseDouble decode tokenEndpoint authorization
      around n).state = some s) :
    ∃ result, CompleteGoes digit parseDouble decode around (deadlineOf around authorization) s result ∧
      completeDeviceAuthorizationWithRefresh digit parseDouble decode tokenEndpoint authorization around
        (n + 1) = ⟨(completeDeviceAuthorizationWithRefresh digit parseDouble decode tokenEndpoint
          authorization around n).outputs ++ result.1, result.2⟩ :=
  ⟨_, completeRound_goes digit parseDouble decode tokenEndpoint around _ s, run_succ_of_running hs⟩

/-- A flow that went so far is in the state of the schedule. -/
theorem flow_of_went {n : Nat}
    (h : Went around (asks digit parseDouble decode around) authorization n) :
    (completeDeviceAuthorizationWithRefresh digit parseDouble decode tokenEndpoint authorization
      around n).state = some (stateAt around (asks digit parseDouble decode around) authorization n) := by
  induction n with
  | zero =>
    rw [completeDeviceAuthorizationWithRefresh, run, completeStart_of_fits authorization h.1]
    rfl
  | succ n ih =>
    obtain ⟨hsleeps, hasked⟩ := h.2 n (Nat.lt_succ_self n)
    have hstate := ih ⟨h.1, fun k hk => h.2 k (Nat.lt_succ_of_lt hk)⟩
    obtain ⟨result, hround, hnext⟩ :=
      flow_succ digit parseDouble decode tokenEndpoint around authorization hstate
    rw [hnext]
    cases hround with
    | idle hawake => exact absurd hsleeps hawake
    | stop _ hnone =>
      rw [stateAt_rounds] at hnone
      rw [hnone] at hasked
      cases hasked
    | again _ slower hslower =>
      rw [stateAt_rounds] at hslower
      rw [stateAt, hslower]
      rfl

/-- Each sleep that begins and ends is followed by a poll. -/
theorem poll_of_begun {n : Nat}
    (h : Begun around (asks digit parseDouble decode around) authorization n) :
    ∃ p ∈ polls (completeDeviceAuthorizationWithRefresh digit parseDouble decode tokenEndpoint
        authorization around (n + 1)).outputs,
      p.sent = wokenAt around (asks digit parseDouble decode around) authorization n := by
  have hstate := flow_of_went digit parseDouble decode tokenEndpoint around authorization h.1
  obtain ⟨result, hround, hnext⟩ :=
    flow_succ digit parseDouble decode tokenEndpoint around authorization hstate
  rw [hnext]
  cases hround with
  | idle hawake => exact absurd h.2 hawake
  | stop =>
    refine ⟨⟨_, false⟩, ?_, rfl⟩
    rw [polls_append]
    exact List.mem_append_right _ List.mem_cons_self
  | again _ slower =>
    refine ⟨⟨_, slower⟩, ?_, rfl⟩
    rw [polls_append]
    exact List.mem_append_right _ List.mem_cons_self

theorem flow_polls (n : Nat) :
    Paced (authorization.interval.toInt.toNat * second) (5 * second)
        (polls (completeDeviceAuthorizationWithRefresh digit parseDouble decode tokenEndpoint
          authorization around n).outputs) ∧
      ∀ p ∈ polls (completeDeviceAuthorizationWithRefresh digit parseDouble decode tokenEndpoint
          authorization around n).outputs, ∃ k,
        Begun around (asks digit parseDouble decode around) authorization k ∧
          p.sent = wokenAt around (asks digit parseDouble decode around) authorization k := by
  have hstart : polls (completeStart authorization).outputs = [] := by
    rw [completeStart]
    split <;> rfl
  refine run_outputs (P := fun outputs =>
      Paced (authorization.interval.toInt.toNat * second) (5 * second) (polls outputs) ∧
        ∀ p ∈ polls outputs, ∃ k,
          Begun around (asks digit parseDouble decode around) authorization k ∧
            p.sent = wokenAt around (asks digit parseDouble decode around) authorization k)
    (flow_knows digit parseDouble decode tokenEndpoint around authorization) ?_
    (fun outputs s h _ => h.polls_round (completeRound_goes _ _ _ _ _ _ s)) n
  rw [hstart]
  exact ⟨paced_nil _ _, fun p hp => nomatch hp⟩

theorem flow_rounds {n : Nat} {s : FlowState}
    (h : (completeDeviceAuthorizationWithRefresh digit parseDouble decode tokenEndpoint authorization
      around n).state = some s) : s.rounds = n := by
  induction n generalizing s with
  | zero =>
    rw [completeDeviceAuthorizationWithRefresh, run, completeStart] at h
    split at h
    · cases h
    · cases h
      rfl
  | succ n ih =>
    cases hs : (completeDeviceAuthorizationWithRefresh digit parseDouble decode tokenEndpoint
        authorization around n).state with
    | none =>
      have hstopped := run_succ_of_stopped hs
      rw [completeDeviceAuthorizationWithRefresh, hstopped] at h
      cases hs.symm.trans h
    | some s₀ =>
      obtain ⟨result, hround, hnext⟩ :=
        flow_succ digit parseDouble decode tokenEndpoint around authorization hs
      rw [hnext] at h
      cases hround with
      | idle | stop => cases h
      | again =>
        cases h
        exact congrArg (· + 1) (ih hs)

/-- A flow ends once if some round of the schedule is not begun. -/
theorem flow_ends_iff :
    (∃ n, (completeDeviceAuthorizationWithRefresh digit parseDouble decode tokenEndpoint authorization
        around n).state = none ∧
      EndsOnce (fun _ => True) (completeDeviceAuthorizationWithRefresh digit parseDouble decode
        tokenEndpoint authorization around n).outputs) ↔
      ∃ n, ¬ Begun around (asks digit parseDouble decode around) authorization n := by
  have hwent := @flow_of_went _ digit parseDouble decode tokenEndpoint around authorization
  constructor
  · rintro ⟨n, hstopped, _⟩
    refine ⟨n, fun hbegun => ?_⟩
    rw [hwent hbegun.1] at hstopped
    cases hstopped
  · rintro ⟨n, hnot⟩
    cases hfits : fitsLong (nanos authorization.expiresIn.toInt) with
    | false =>
      have hstart : completeStart authorization = ⟨[.report (.error .arithmetic)], none⟩ := by
        rw [completeStart, if_pos hfits]
      refine ⟨0, ?_⟩
      rw [completeDeviceAuthorizationWithRefresh, run, hstart]
      exact ⟨rfl, [], _, rfl, trivial, fun _ h => absurd h List.not_mem_nil⟩
    | true =>
      have hrunning : (completeStart authorization).state ≠ none := by
        rw [completeStart_of_fits authorization hfits]
        simp
      have hknows := flow_knows digit parseDouble decode tokenEndpoint around authorization
      have hstopped : (completeDeviceAuthorizationWithRefresh digit parseDouble decode tokenEndpoint
          authorization around (n + 1)).state = none := by
        apply Option.eq_none_iff_forall_ne_some.mpr
        intro s hs
        have hwent := (hknows _ s hs).went
        rw [flow_rounds digit parseDouble decode tokenEndpoint around authorization hs] at hwent
        exact hnot ⟨⟨hfits, fun k hk => hwent.2 k (Nat.lt_succ_of_lt hk)⟩,
          (hwent.2 n (Nat.lt_succ_self n)).1⟩
      refine ⟨n + 1, hstopped, ?_⟩
      obtain ⟨m, s, hs, hlast, houtputs⟩ := exists_last_round hrunning hstopped
      rw [completeDeviceAuthorizationWithRefresh, houtputs]
      exact (hknows m s hs).endsOnce (completeRound_goes _ _ _ _ _ _ s) hlast

theorem completeDeviceAuthorizationWithRefresh_iff :
    AsAsked (fun _ => True) (authorization.interval.toInt.toNat * second) (5 * second)
        (lifetime authorization)
        (completeDeviceAuthorizationWithRefresh digit parseDouble decode tokenEndpoint authorization
          around) ↔
      SleepsFit around (asks digit parseDouble decode around) authorization := by
  have hends := flow_ends_iff digit parseDouble decode tokenEndpoint around authorization
  constructor
  · intro h
    refine ⟨fun n hbegun => ?_, fun _ => hends.mp h.ends⟩
    obtain ⟨p, hp, hsent⟩ :=
      poll_of_begun digit parseDouble decode tokenEndpoint around authorization hbegun
    rw [← hsent]
    exact h.inTime (n + 1) p hp
  · intro h
    have hpolls := flow_polls digit parseDouble decode tokenEndpoint around authorization
    refine ⟨fun n => (hpolls n).1, fun n p hp => ?_, hends.mpr ?_⟩
    · obtain ⟨k, hbegun, hsent⟩ := (hpolls n).2 p hp
      rw [hsent]
      exact h.inTime k hbegun
    · rcases Int.lt_trichotomy authorization.interval.toInt 0 with hneg | hzero | hpos
      · refine ⟨0, fun hbegun => ?_⟩
        have hforward : 0 ≤ authorization.interval.toInt := hbegun.2.forward
        omega
      · exact h.stops (Int64.toInt_inj.mp hzero)
      · exact not_all_begun hpos h.inTime

end Runs

end Poll

end Sdk.Java

open Sdk.Java in
/-- The flows of the core poll as they are asked to exactly if an `Instant` can stand for the end of
the lifetime, and the flow of the library if each sleep that begins in time ends in time. -/
theorem device_flows_asAsked_iff {D : Type} (digit : Nat → Option Nat)
    (parseDouble : List Nat → D) (decode : List Nat → List Nat) :
    (∀ (tokenEndpoint clientId : String) (device : DeviceCodeResponse) (around : CoreAround),
      AsAsked Told.closes (device.interval.toNat * second) (5 * second) (around.deadline device)
          (runDiscoveredDeviceFlow tokenEndpoint clientId device around) ↔
        around.deadline device ≤ around.lastInstant) ∧
    (∀ (device : DeviceCodeResponse) (around : CoreAround),
      AsAsked Told.closes (device.interval.toNat * second) (5 * second) (around.deadline device)
          (runDeviceFlow device around) ↔
        (around.listening 0 → around.deadline device ≤ around.lastInstant)) ∧
    ∀ (tokenEndpoint : List Nat) (authorization : DeviceAuthorization) (around : JavaAround),
      AsAsked (fun _ => True) (authorization.interval.toInt.toNat * second) (5 * second)
          (lifetime authorization)
          (completeDeviceAuthorizationWithRefresh digit parseDouble decode tokenEndpoint
            authorization around) ↔
        SleepsFit around (asks digit parseDouble decode around) authorization :=
  ⟨fun tokenEndpoint clientId device around =>
      runDiscoveredDeviceFlow_iff device around tokenEndpoint clientId,
    runDeviceFlow_iff,
    fun tokenEndpoint authorization around =>
      completeDeviceAuthorizationWithRefresh_iff digit parseDouble decode tokenEndpoint around
        authorization⟩

namespace Sdk.Java

/-! A computer that is suspended while a flow sleeps. -/

def fiveMinutes : DeviceAuthorization := ⟨300, 5⟩

/-- The first sleep takes 400 seconds, and the answer to the poll is that the code has expired. -/
def suspended : JavaAround where
  answer _ := .ok ⟨400, [], (strings.literal "\x7b\"error\":\"expired_token\"\x7d")⟩
  latency _ := 0
  oversleep n := if n = 0 then 395 * second else 0
  origin := 0
  interrupted _ := false

theorem suspended_polls_late :
    ¬ AsAsked (fun _ => True) (fiveMinutes.interval.toInt.toNat * second) (5 * second)
      (lifetime fiveMinutes)
      (completeDeviceAuthorizationWithRefresh (fun _ => none) (fun _ => ()) id [] fiveMinutes
        suspended) := by
  intro h
  have hbegun : Begun suspended (asks (fun _ => none) (fun _ => ()) id suspended) fiveMinutes 0 :=
    ⟨⟨by decide, fun k hk => absurd hk (Nat.not_lt_zero k)⟩, by decide, by decide, by decide, rfl⟩
  obtain ⟨p, hp, hsent⟩ := poll_of_begun (fun _ => none) (fun _ => ()) id [] suspended fiveMinutes
    hbegun
  have hlate := h.inTime 1 p hp
  rw [hsent] at hlate
  revert hlate
  decide

end Sdk.Java

end AuruPm
