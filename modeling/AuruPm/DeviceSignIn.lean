import AuruPm.Lib.Polling
import AuruPm.SdkErrors
import AuruPm.TokenRefresh

/-!
# Sign-in on another device

The two flows of the core and the blocking flow of the Java library ask the token endpoint again
and again until the person has approved. An answer may ask to slow down, and the device code has a
lifetime. Times are in nanoseconds, and time passes in sleeps and in requests: a sleep may take
longer than asked, and an answer takes what it takes.
-/

namespace AuruPm

set_option autoImplicit false

open Polling

namespace OAuth

def second : Nat := 10 ^ 9

/-- What the loops do not decide: each answer, how long it takes, and how much longer than asked
each sleep takes. -/
structure Around (A : Type) where
  answer : Nat → A
  latency : Nat → Nat
  oversleep : Nat → Nat

/-! The core. -/

structure DeviceCodeResponse where
  deviceCode : String
  userCode : String
  verificationUri : String
  verificationUriComplete : Option String
  expiresIn : UInt64
  interval : UInt64
  deriving DecidableEq

inductive OAuthProgress where
  | deviceCode (device : DeviceCodeResponse)
  | pending
  | token (token : String)
  | credential (credential : ProviderCredential)
  | expired
  | accessDenied
  | error (message : String)
  deriving DecidableEq

def OAuthProgress.terminal : OAuthProgress → Bool
  | .deviceCode _ | .pending => false
  | _ => true

/-- An event that is sent, and whether the receiver is still there. -/
structure Told where
  event : OAuthProgress
  heard : Bool
  deriving DecidableEq

/-- A flow ends with a terminal event, or is cancelled by dropping the receiver. -/
def Told.closes (told : Told) : Prop := told.event.terminal = true ∨ told.heard = false

structure TokenResponse where
  accessToken : Option String
  error : Option String
  errorDescription : Option String
  refreshToken : Option String
  expiresIn : Option UInt64
  scope : Option String
  tokenType : Option String

structure StatusCode where
  code : Nat
  text : String

def StatusCode.isSuccess (status : StatusCode) : Bool := 200 ≤ status.code && status.code < 300

inductive PollAnswer where
  | failed (error : String)
  | answered (status : StatusCode) (body : Except String TokenResponse)

def parseTokenResponse (tokenEndpoint clientId : String) (now : Int) (status : StatusCode)
    (body : Except String TokenResponse) : Except String ProviderCredential := do
  let token ← body.mapError ("decode token response: " ++ ·)
  let rejected := "token endpoint rejected sign-in: " ++
    (token.errorDescription.or token.error).getD status.text
  match token.accessToken with
  | none => throw rejected
  | some accessToken =>
    if status.isSuccess = false then throw rejected
    else if token.tokenType.any fun tokenType => !Authenticator.isBearer tokenType then
      throw "token endpoint returned a non-bearer access token"
    else
      let seconds := token.expiresIn.filter fun seconds => seconds.toNat < 2 ^ 63
      return .oauth accessToken token.refreshToken
        (seconds.map fun seconds => Authenticator.saturatingAdd now seconds.toNat)
        tokenEndpoint clientId token.scope

/-- What an answer makes a loop do. -/
inductive Verdict where
  | again
  | slower
  | stop (event : OAuthProgress)
  deriving DecidableEq

def judgeDiscovered (tokenEndpoint clientId : String) (now : Int) : PollAnswer → Verdict
  | .failed error => .stop (.error ("device token request failed: " ++ error))
  | .answered status body =>
    if status.isSuccess then
      match parseTokenResponse tokenEndpoint clientId now status body with
      | .ok credential => .stop (.credential credential)
      | .error error => .stop (.error error)
    else
      match body with
      | .error error => .stop (.error ("device token response: " ++ error))
      | .ok body =>
        match body.error with
        | some "authorization_pending" => .again
        | some "slow_down" => .slower
        | some "access_denied" => .stop .accessDenied
        | some "expired_token" => .stop .expired
        | error => .stop (.error ("device authorization failed: " ++ error.getD "unknown_error"))

def judgeLegacy : PollAnswer → Verdict
  | .failed error => .stop (.error ("token poll error: " ++ error))
  | .answered _ (.error error) => .stop (.error ("token parse error: " ++ error))
  | .answered _ (.ok body) =>
    match body.accessToken, body.error with
    | some token, _ => .stop (.token token)
    | none, some "authorization_pending" => .again
    | none, some "slow_down" => .slower
    | none, some "expired_token" => .stop .expired
    | none, some "access_denied" => .stop .accessDenied
    | none, some other => .stop (.error ("OAuth error: " ++ other))
    | none, none => .stop (.error "empty token response")

structure CoreAround extends Around PollAnswer where
  started : Nat
  /-- The last time that an `Instant` can stand for. -/
  lastInstant : Nat
  unixTime : Nat → Int
  /-- Whether the receiver is still there when an event is sent. -/
  listening : Nat → Bool

/-- How a flow counts its waits: in what unit, by how much they grow, and up to what. -/
structure Waits where
  unit : Nat
  step : Nat
  cap : Nat

/-- A `u64` of seconds. -/
def inSeconds : Waits := ⟨second, 5, 2 ^ 64 - 1⟩

/-- A `Duration`. -/
def inDurations : Waits := ⟨1, 5 * second, 2 ^ 64 * second - 1⟩

structure LoopState where
  now : Nat
  wait : Nat
  rounds : Nat
  deriving DecidableEq

def pollRound (waits : Waits) (judge : Int → PollAnswer → Verdict) (around : CoreAround)
    (deadline : Nat) (s : LoopState) : List (Output Told) × Option LoopState :=
  let woken := s.now + s.wait * waits.unit + around.oversleep s.rounds
  let heard := around.listening (s.rounds + 1)
  let goOn (wait : Nat) : Option LoopState :=
    if heard then some ⟨woken + around.latency s.rounds, wait, s.rounds + 1⟩ else none
  if deadline ≤ woken then ([.report ⟨.expired, heard⟩], none)
  else
    match judge (around.unixTime s.rounds) (around.answer s.rounds) with
    | .stop event => ([.poll ⟨woken, false⟩, .report ⟨event, heard⟩], none)
    | .again => ([.poll ⟨woken, false⟩, .report ⟨.pending, heard⟩], goOn s.wait)
    | .slower =>
      ([.poll ⟨woken, true⟩, .report ⟨.pending, heard⟩], goOn (min (s.wait + waits.step) waits.cap))

def CoreAround.deadline (around : CoreAround) (device : DeviceCodeResponse) : Nat :=
  around.started + device.expiresIn.toNat * second

/-- Without a state where the addition panics or the receiver is gone. -/
def discoveredStart (device : DeviceCodeResponse) (around : CoreAround) : Config Told LoopState :=
  if around.lastInstant < around.deadline device then ⟨[], none⟩
  else
    ⟨[.report ⟨.deviceCode device, around.listening 0⟩],
      if around.listening 0 then some ⟨around.started, max device.interval.toNat 5, 0⟩ else none⟩

/-- So many rounds of `run_discovered_device_flow`, from the device code on. -/
def runDiscoveredDeviceFlow (tokenEndpoint clientId : String) (device : DeviceCodeResponse)
    (around : CoreAround) : Nat → Config Told LoopState :=
  run (pollRound inSeconds (judgeDiscovered tokenEndpoint clientId) around (around.deadline device))
    (discoveredStart device around)

def legacyStart (device : DeviceCodeResponse) (around : CoreAround) : Config Told LoopState :=
  ⟨[.report ⟨.deviceCode device, around.listening 0⟩],
    if around.listening 0 = false ∨ around.lastInstant < around.deadline device then none
    else some ⟨around.started, max device.interval.toNat 5 * second, 0⟩⟩

/-- So many rounds of `run_device_flow`, from the device code on. -/
def runDeviceFlow (device : DeviceCodeResponse) (around : CoreAround) :
    Nat → Config Told LoopState :=
  run (pollRound inDurations (fun _ => judgeLegacy) around (around.deadline device))
    (legacyStart device around)

/-! What a round of the core does. -/

section Core
variable {waits : Waits} {judge : Int → PollAnswer → Verdict} {around : CoreAround} {deadline : Nat}

def LoopState.woken (s : LoopState) (waits : Waits) (around : CoreAround) : Nat :=
  s.now + s.wait * waits.unit + around.oversleep s.rounds

/-- The ways in which a round can go. -/
inductive RoundGoes (waits : Waits) (around : CoreAround) (deadline : Nat) (s : LoopState) :
    List (Output Told) × Option LoopState → Prop
  | late (isOver : deadline ≤ s.woken waits around) (heard : Bool) :
      RoundGoes waits around deadline s ([.report ⟨.expired, heard⟩], none)
  | stop (inTime : s.woken waits around < deadline) (event : OAuthProgress) (heard : Bool)
      (closes : (⟨event, heard⟩ : Told).closes) :
      RoundGoes waits around deadline s
        ([.poll ⟨s.woken waits around, false⟩, .report ⟨event, heard⟩], none)
  | unheard (inTime : s.woken waits around < deadline) (slower : Bool) :
      RoundGoes waits around deadline s
        ([.poll ⟨s.woken waits around, slower⟩, .report ⟨.pending, false⟩], none)
  | again (inTime : s.woken waits around < deadline) (slower : Bool) :
      RoundGoes waits around deadline s
        ([.poll ⟨s.woken waits around, slower⟩, .report ⟨.pending, true⟩],
          some ⟨s.woken waits around + around.latency s.rounds,
            if slower then min (s.wait + waits.step) waits.cap else s.wait, s.rounds + 1⟩)

/-- A judge stops with terminal events only. -/
def Decided (judge : Int → PollAnswer → Verdict) : Prop :=
  ∀ now answer event, judge now answer = .stop event → event.terminal = true

theorem decided_discovered (tokenEndpoint clientId : String) :
    Decided (judgeDiscovered tokenEndpoint clientId) := by
  intro now answer event h
  unfold judgeDiscovered at h
  repeat' split at h
  all_goals cases h
  all_goals rfl

theorem decided_legacy : Decided fun _ => judgeLegacy := by
  intro now answer event h
  simp only [judgeLegacy] at h
  repeat' split at h
  all_goals cases h
  all_goals rfl

theorem pollRound_goes (hjudge : Decided judge) (s : LoopState) :
    RoundGoes waits around deadline s (pollRound waits judge around deadline s) := by
  unfold pollRound
  simp only
  split
  · rename_i hover
    exact .late hover _
  · rename_i hover
    have hin : s.woken waits around < deadline := Nat.lt_of_not_le hover
    split
    · rename_i event hverdict
      exact .stop hin event _ (Or.inl (hjudge _ _ event hverdict))
    · cases around.listening (s.rounds + 1) with
      | true => exact .again hin false
      | false => exact .unheard hin false
    · cases around.listening (s.rounds + 1) with
      | true => exact .again hin true
      | false => exact .unheard hin true

/-- What a flow knows between two rounds. The wait is the one that is due, up to the cap. -/
structure Knows (waits : Waits) (interval started deadline : Nat) (outputs : List (Output Told))
    (s : LoopState) : Prop where
  kept : ∃ due, Polling.Kept interval (waits.step * waits.unit) (polls outputs) s.now due ∧
    interval ≤ due ∧ min due (waits.cap * waits.unit) ≤ s.wait * waits.unit
  started : started ≤ s.now
  inTime : ∀ p ∈ polls outputs, p.sent < deadline
  open_ : ∀ told, .report told ∈ outputs → ¬ told.closes

variable {interval started : Nat} {outputs : List (Output Told)} {s s' : LoopState}

/-- A wait that was cut at the cap outlasts the deadline. -/
theorem Knows.waited (h : Knows waits interval started deadline outputs s)
    (hdeadline : deadline ≤ started + waits.cap * waits.unit)
    (hin : s.woken waits around < deadline) :
    ∃ due, Polling.Kept interval (waits.step * waits.unit) (polls outputs) s.now due ∧
      interval ≤ due ∧ due ≤ s.wait * waits.unit ∧ s.now + due ≤ s.woken waits around := by
  obtain ⟨due, hkept, hinterval, hwait⟩ := h.kept
  have hstarted := h.started
  have hwoken : s.woken waits around = s.now + s.wait * waits.unit + around.oversleep s.rounds := rfl
  have hdue : due ≤ s.wait * waits.unit := by omega
  exact ⟨due, hkept, hinterval, hdue, by omega⟩

theorem Knows.polls_round (h : Knows waits interval started deadline outputs s)
    (hdeadline : deadline ≤ started + waits.cap * waits.unit)
    {result : List (Output Told) × Option LoopState}
    (hround : RoundGoes waits around deadline s result) :
    Paced interval (waits.step * waits.unit) (polls (outputs ++ result.1)) ∧
      ∀ p ∈ polls (outputs ++ result.1), p.sent < deadline := by
  have hpoll : s.woken waits around < deadline → ∀ slower,
      Paced interval (waits.step * waits.unit)
          (polls outputs ++ [⟨s.woken waits around, slower⟩]) ∧
        ∀ p ∈ polls outputs ++ [⟨s.woken waits around, slower⟩], p.sent < deadline := by
    intro hin slower
    obtain ⟨due, hkept, _, _, hwoken⟩ := h.waited hdeadline hin
    refine ⟨(hkept.poll (q := ⟨_, slower⟩) hwoken (Nat.le_refl _)).paced, fun p hp => ?_⟩
    rcases List.mem_append.mp hp with hp | hp
    · exact h.inTime p hp
    · rw [List.mem_singleton.mp hp]
      exact hin
  cases hround with
  | late =>
    obtain ⟨due, hkept, _⟩ := h.kept
    simp only [polls_append, polls_cons_report, polls_nil, List.append_nil]
    exact ⟨hkept.paced, h.inTime⟩
  | stop hin => simpa using hpoll hin false
  | unheard hin slower => simpa using hpoll hin slower
  | again hin slower => simpa using hpoll hin slower

theorem Knows.again (h : Knows waits interval started deadline outputs s)
    (hdeadline : deadline ≤ started + waits.cap * waits.unit)
    {result : List (Output Told) × Option LoopState}
    (hround : RoundGoes waits around deadline s result) (hgoes : result.2 = some s') :
    Knows waits interval started deadline (outputs ++ result.1) s' := by
  have hpolls := h.polls_round hdeadline hround
  cases hround with
  | late | stop | unheard => cases hgoes
  | again hin slower =>
    cases hgoes
    obtain ⟨due, hkept, hinterval, hdue, hwoken⟩ := h.waited hdeadline hin
    have hstarted := h.started
    refine ⟨⟨due + if slower then waits.step * waits.unit else 0, ?_, by omega, ?_⟩, ?_, hpolls.2, ?_⟩
    · rw [polls_append, polls_cons_poll, polls_cons_report, polls_nil]
      exact hkept.poll (q := ⟨_, slower⟩) hwoken (Nat.le_add_right _ _)
    · cases slower with
      | false =>
        simp only [Bool.false_eq_true, if_false]
        omega
      | true =>
        simp only [if_true, ← Nat.mul_min_mul_right, Nat.add_mul]
        omega
    · simp only
      omega
    · intro told htold
      rcases List.mem_append.mp htold with htold | htold
      · exact h.open_ told htold
      · simp only [List.mem_cons, reduceCtorEq, Output.report.injEq, List.not_mem_nil, or_false,
          false_or] at htold
        subst htold
        simp [Told.closes, OAuthProgress.terminal]

theorem Knows.endsOnce (h : Knows waits interval started deadline outputs s)
    {result : List (Output Told) × Option LoopState}
    (hround : RoundGoes waits around deadline s result) (hstops : result.2 = none) :
    EndsOnce Told.closes (outputs ++ result.1) := by
  cases hround with
  | late _ heard => exact ⟨outputs, _, rfl, Or.inl rfl, h.open_⟩
  | stop _ event heard hcloses =>
    refine ⟨outputs ++ [.poll ⟨s.woken waits around, false⟩], _, ?_, hcloses, fun told htold => ?_⟩
    · rw [List.append_assoc]
      rfl
    · exact h.open_ told (by simpa using htold)
  | unheard _ slower =>
    refine ⟨outputs ++ [.poll ⟨s.woken waits around, slower⟩], ⟨.pending, false⟩, ?_, Or.inr rfl,
      fun told htold => ?_⟩
    · rw [List.append_assoc]
      rfl
    · exact h.open_ told (by simpa using htold)
  | again => cases hstops

/-- A flow whose deadline is not beyond what its waits can be does what is asked. -/
theorem asAsked_of_started (hjudge : Decided judge) (hinterval : 0 < interval)
    (hdeadline : deadline ≤ started + waits.cap * waits.unit) (hpolls : polls outputs = [])
    (hopen : ∀ told, .report told ∈ outputs → ¬ told.closes) {wait : Nat}
    (hwait : interval ≤ wait * waits.unit) :
    AsAsked Told.closes interval (waits.step * waits.unit) deadline
      (run (pollRound waits judge around deadline) ⟨outputs, some ⟨started, wait, 0⟩⟩) := by
  have hgoes : ∀ s, RoundGoes waits around deadline s (pollRound waits judge around deadline s) :=
    pollRound_goes hjudge
  have hstart : Knows waits interval started deadline outputs ⟨started, wait, 0⟩ := by
    refine ⟨⟨interval, ?_, Nat.le_refl _, by simp only; omega⟩, Nat.le_refl _, ?_, hopen⟩
    · rw [hpolls]
      exact Polling.Kept.nil _ _ _
    · rw [hpolls]
      exact fun p hp => nomatch hp
  have hinv : ∀ n s, (run (pollRound waits judge around deadline)
      ⟨outputs, some ⟨started, wait, 0⟩⟩ n).state = some s →
        Knows waits interval started deadline (run (pollRound waits judge around deadline)
          ⟨outputs, some ⟨started, wait, 0⟩⟩ n).outputs s :=
    run_invariant (fun s hs => Option.some.inj hs ▸ hstart)
      fun outputs s s' h hs' => h.again hdeadline (hgoes s) hs'
  have hall := run_outputs (P := fun outputs =>
      Paced interval (waits.step * waits.unit) (polls outputs) ∧
        ∀ p ∈ polls outputs, p.sent < deadline)
    hinv ⟨by rw [hpolls]; exact paced_nil _ _, hstart.inTime⟩
    (fun outputs s h _ => h.polls_round hdeadline (hgoes s))
  obtain ⟨n, hn⟩ := run_stops (f := fun s => deadline - s.now) hinv (by
    intro outputs s s' h hs'
    have hround := hgoes s
    generalize pollRound waits judge around deadline s = result at hround hs'
    cases hround with
    | late | stop | unheard => cases hs'
    | again hin slower =>
      cases hs'
      obtain ⟨due, _, hdue, _, hwoken⟩ := h.waited hdeadline hin
      simp only
      omega)
  refine ⟨fun n => (hall n).1, fun n => (hall n).2, n, hn, ?_⟩
  obtain ⟨m, s, hs, hlast, houtputs⟩ := exists_last_round (by simp) hn
  rw [houtputs]
  exact (hinv m s hs).endsOnce (hgoes s) hlast

theorem not_endsOnce_nil {E : Type} {closes : E → Prop} : ¬ EndsOnce closes [] := by
  rintro ⟨before, last, heq, _⟩
  simp at heq

/-- A device code is no last word. -/
theorem deviceCode_open (device : DeviceCodeResponse) (told : Told)
    (h : Output.report told ∈ [Output.report ⟨.deviceCode device, true⟩]) : ¬ told.closes := by
  simp only [List.mem_singleton, Output.report.injEq] at h
  subst h
  simp [Told.closes, OAuthProgress.terminal]

theorem deviceCode_unheard (device : DeviceCodeResponse) :
    EndsOnce Told.closes [Output.report ⟨.deviceCode device, false⟩] :=
  ⟨[], _, rfl, Or.inr rfl, fun _ h => nomatch h⟩

variable (device : DeviceCodeResponse) (around : CoreAround)

theorem runDiscoveredDeviceFlow_iff (tokenEndpoint clientId : String) :
    AsAsked Told.closes (device.interval.toNat * second) (5 * second) (around.deadline device)
        (runDiscoveredDeviceFlow tokenEndpoint clientId device around) ↔
      around.deadline device ≤ around.lastInstant := by
  unfold runDiscoveredDeviceFlow discoveredStart
  split
  · rename_i hover
    constructor
    · intro h
      obtain ⟨n, _, hends⟩ := h.ends
      rw [run_of_stopped rfl] at hends
      exact absurd hends not_endsOnce_nil
    · intro h
      omega
  · rename_i hover
    refine ⟨fun _ => by omega, fun _ => ?_⟩
    cases hheard : around.listening 0 with
    | false => exact asAsked_of_stopped (by simp) rfl (deviceCode_unheard device)
    | true =>
      have hlifetime : around.deadline device ≤
          around.started + inSeconds.cap * inSeconds.unit := by
        have hlt := device.expiresIn.toNat_lt
        exact Nat.add_le_add_left (Nat.mul_le_mul_right second (by simp only [inSeconds]; omega)) _
      have hbase : 0 < max device.interval.toNat 5 * second := by
        simp only [second]
        omega
      exact (asAsked_of_started (decided_discovered tokenEndpoint clientId) hbase hlifetime rfl
        (deviceCode_open device) (Nat.le_refl _)).mono
          (Nat.mul_le_mul_right second (Nat.le_max_left _ 5))

theorem runDeviceFlow_iff :
    AsAsked Told.closes (device.interval.toNat * second) (5 * second) (around.deadline device)
        (runDeviceFlow device around) ↔
      (around.listening 0 → around.deadline device ≤ around.lastInstant) := by
  unfold runDeviceFlow legacyStart
  cases hheard : around.listening 0 with
  | false =>
    refine ⟨fun _ h => (nomatch h), fun _ => ?_⟩
    exact asAsked_of_stopped (by simp) rfl (deviceCode_unheard device)
  | true =>
    by_cases hover : around.lastInstant < around.deadline device
    · constructor
      · intro h
        obtain ⟨n, _, before, last, heq, hcloses, _⟩ := h.ends
        rw [run_of_stopped (by simp [hover])] at heq
        have hlast : Output.report last ∈ [Output.report ⟨.deviceCode device, true⟩] := by
          simp only at heq
          rw [heq]
          exact List.mem_append_right before List.mem_cons_self
        exact absurd hcloses (deviceCode_open device last hlast)
      · intro h
        have hfits := h rfl
        omega
    · refine ⟨fun _ _ => by omega, fun _ => ?_⟩
      have hlifetime : around.deadline device ≤
          around.started + inDurations.cap * inDurations.unit := by
        have hlt := device.expiresIn.toNat_lt
        simp only [CoreAround.deadline, inDurations, second]
        omega
      have hbase : 0 < max device.interval.toNat 5 * second := by
        simp only [second]
        omega
      rw [if_neg (by simp [hover])]
      exact (asAsked_of_started decided_legacy hbase hlifetime rfl (deviceCode_open device)
        (Nat.le_of_eq (Nat.mul_one _).symm)).mono
          (Nat.mul_le_mul_right second (Nat.le_max_left _ 5))

end Core

end OAuth

end AuruPm
