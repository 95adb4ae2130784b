import AuruPm.Lib.Protocol
import Mathlib.Algebra.Group.Int.Defs
import Mathlib.Algebra.Group.Nat.Defs
import Mathlib.Data.Set.Insert

/-!
# Requests that share an access token

Every request reads the credential under one lock, and one that is rejected refreshes it under the
same lock, unless it was replaced meanwhile. The server gives out a new refresh token for each that
it redeems.
-/

namespace AuruPm

set_option autoImplicit false

open Threads

inductive HttpError where
  | network (detail : String)
  | auth (detail : String)
  | other (detail : String)
  deriving DecidableEq, Repr

inductive ProviderCredential where
  | pat (accessToken : String)
  | oauth (accessToken : String) (refreshToken : Option String) (expiresAt : Option Int)
    (tokenEndpoint clientId : String) (scope : Option String)
  deriving DecidableEq, Repr

namespace ProviderCredential

def accessToken : ProviderCredential → String
  | .pat accessToken => accessToken
  | .oauth accessToken _ _ _ _ _ => accessToken

def refreshToken : ProviderCredential → Option String
  | .pat _ => none
  | .oauth _ refreshToken _ _ _ _ => refreshToken

end ProviderCredential

structure RefreshTokenResponse where
  accessToken : String
  refreshToken : Option String
  expiresIn : Option Nat
  scope : Option String
  tokenType : Option String
  deriving DecidableEq, Repr

/-- What comes back from a token endpoint. -/
inductive TokenAnswer where
  | unreachable (error : String)
  | refused (status body : String)
  | unreadable (error : String)
  | answered (refreshed : RefreshTokenResponse)

namespace Authenticator

/-- What a request does outside of itself: the lock of the credential and what is behind it, the
clock, the token endpoint, the token store, and the request proper. -/
inductive AuthOp where
  | lock
  | write (credential : ProviderCredential)
  | unlock
  | unixTime
  | refresh (refreshToken tokenEndpoint clientId : String)
  | store (storageId : String) (credential : ProviderCredential)
  | send (bearer : Option String)

def AuthOp.Answer : AuthOp → Type
  | .lock => ProviderCredential
  | .write _ => Unit
  | .unlock => Unit
  | .unixTime => Int
  | .refresh _ _ _ => TokenAnswer
  | .store _ _ => Except HttpError Unit
  | .send _ => Except String Nat

abbrev Request := Prog AuthOp AuthOp.Answer Empty HttpError

def lock : Request ProviderCredential := demand AuthOp.lock

def write (credential : ProviderCredential) : Request Unit := demand (AuthOp.write credential)

def unlock : Request Unit := demand AuthOp.unlock

def unixTime : Request Int := demand AuthOp.unixTime

def postRefresh (refreshToken tokenEndpoint clientId : String) : Request TokenAnswer :=
  demand (AuthOp.refresh refreshToken tokenEndpoint clientId)

def storeProviderCredential (storageId : String) (credential : ProviderCredential) :
    Request (Except HttpError Unit) :=
  demand (AuthOp.store storageId credential)

def send (bearer : Option String) : Request (Except String Nat) := demand (AuthOp.send bearer)

/-- `i64::saturating_add` -/
def saturatingAdd (a b : Int) : Int := max (-2 ^ 63) (min (2 ^ 63 - 1) (a + b))

def expiryAfter : Option Nat → Request (Option Int)
  | some seconds =>
    if seconds < 2 ^ 63 then do
      return some (saturatingAdd (← unixTime) seconds)
    else return none
  | none => return none

/-- Whether a token type is a bearer's, in any case. -/
def isBearer (tokenType : String) : Bool := tokenType.map Char.toLower = "bearer"

def refreshCredential : ProviderCredential → Request (Except HttpError ProviderCredential)
  | .oauth _ (some refreshToken) _ tokenEndpoint clientId scope => do
    match ← postRefresh refreshToken tokenEndpoint clientId with
    | .unreachable error => return .error (.network ("refresh OAuth token: " ++ error))
    | .refused status body =>
      return .error (.auth ("OAuth token refresh failed (" ++ status ++ "): " ++ body))
    | .unreadable error => return .error (.other ("refresh token parse: " ++ error))
    | .answered refreshed =>
      if refreshed.tokenType.any fun tokenType => !isBearer tokenType then
        return .error (.auth "OAuth token refresh returned a non-bearer token")
      else do
        let expiresAt ← expiryAfter refreshed.expiresIn
        return .ok (.oauth refreshed.accessToken (refreshed.refreshToken.or (some refreshToken))
          expiresAt tokenEndpoint clientId (refreshed.scope.or scope))
  | _ =>
    return .error (.auth "the OAuth access token expired and no refresh token is available")

/-- Under the lock: refreshes the credential, puts it in place and stores it. -/
def replaceCredential (storageId : Option String) (credential : ProviderCredential) :
    Request (Except HttpError ProviderCredential) := do
  match ← refreshCredential credential with
  | .error error => return .error error
  | .ok refreshed => do
    write refreshed
    match storageId with
    | none => return .ok refreshed
    | some id => return (← storeProviderCredential id refreshed).map fun _ => refreshed

def needsRefresh (forceRefresh : Bool) : ProviderCredential → Request Bool
  | .pat _ => return false
  | .oauth _ _ expiresAt _ _ _ =>
    if forceRefresh then return true
    else
      match expiresAt with
      | none => return false
      | some expiry => return expiry ≤ saturatingAdd (← unixTime) 60

/-- What `access_token` does under the lock. -/
def currentCredential (storageId : Option String) (forceRefresh : Bool)
    (credential : ProviderCredential) : Request (Except HttpError ProviderCredential) := do
  if ← needsRefresh forceRefresh credential then replaceCredential storageId credential
  else return .ok credential

/-- `access_token`; the guard is dropped at its end, also after an error. -/
def accessToken (storageId : Option String) (forceRefresh : Bool) : Request String := do
  let result ← currentCredential storageId forceRefresh (← lock)
  unlock
  Prog.ofExcept (result.map ProviderCredential.accessToken)

/-- What `refresh_after_unauthorized` does under the lock. -/
def credentialAfter (storageId : Option String) (rejectedAccessToken : String)
    (credential : ProviderCredential) : Request (Except HttpError (Option String)) :=
  match credential with
  | .pat _ => return .ok none
  | .oauth _ _ _ _ _ _ =>
    if credential.accessToken ≠ rejectedAccessToken then
      return .ok (some credential.accessToken)
    else
      return (← replaceCredential storageId credential).map fun refreshed =>
        some refreshed.accessToken

def refreshAfterUnauthorized (storageId : Option String) (rejectedAccessToken : String) :
    Request (Option String) := do
  let result ← credentialAfter storageId rejectedAccessToken (← lock)
  unlock
  Prog.ofExcept result

/-- The authenticator that requests share. -/
structure Config where
  storageId : Option String

def sendOnce (bearer : Option String) : Request Nat := do
  match ← send bearer with
  | .error error => .fail (.network error)
  | .ok status => return status

/-- `send_authenticated`; a request without a clonable body has no retry. -/
def sendAuthenticated (authenticator : Option Config) (clonable : Bool) : Request Nat :=
  match authenticator with
  | none => sendOnce none
  | some config => do
    let token ← accessToken config.storageId false
    let status ← sendOnce (some token)
    if status ≠ 401 then return status
    else if !clonable then return status
    else
      match ← refreshAfterUnauthorized config.storageId token with
      | none => return status
      | some fresh => sendOnce (some fresh)

/-! Runs. -/

/-- What requests did that others could see. -/
inductive AuthEvent (I : Type) where
  | sent (i : I) (bearer : String)
  | refreshSent (i : I) (refreshToken : String) (redeemed : Bool)
  | replaced (i : I) (accessToken : String)

/-- The credential with its lock, the refresh tokens that the server gave out, and the events. -/
structure AuthState (I : Type) where
  credential : ProviderCredential
  holder : Option I
  issued : Set String
  log : List (AuthEvent I)

section Runs
variable {I : Type}

def Redeemed (log : List (AuthEvent I)) (token : String) : Prop :=
  ∃ i, AuthEvent.refreshSent i token true ∈ log

/-- One operation. The server rejects a redeemed refresh token and gives a new one for each that it
redeems; where it redeems, its answer arrives and is well formed. -/
def Performs (i : I) (s : AuthState I) : (op : AuthOp) → op.Answer → AuthState I → Prop
  | .lock, credential, s' =>
    s.holder = none ∧ credential = s.credential ∧ s' = { s with holder := some i }
  | .write credential, _, s' =>
    s' = { s with
      credential := credential
      log := s.log ++ [.replaced i credential.accessToken] }
  | .unlock, _, s' => s' = { s with holder := none }
  | .unixTime, _, s' => s' = s
  | .refresh token _ _, .answered refreshed, s' =>
    ¬ Redeemed s.log token ∧ (∀ tokenType ∈ refreshed.tokenType, isBearer tokenType = true) ∧
      ∃ fresh, refreshed.refreshToken = some fresh ∧ fresh ∉ s.issued ∧
        s' = { s with
          issued := insert fresh s.issued
          log := s.log ++ [.refreshSent i token true] }
  | .refresh token _ _, _, s' => s' = { s with log := s.log ++ [.refreshSent i token false] }
  | .store _ _, _, s' => s' = s
  | .send bearer, _, s' => s' = { s with log := s.log ++ bearer.toList.map (.sent i) }

/-- A request that is dropped while it waits gives up the lock. -/
def Cancels (i : I) (op : AuthOp) (s s' : AuthState I) : Prop :=
  match op with
  | .lock => s' = s
  | .refresh token _ _ => s' = { s with
      holder := none
      log := s.log ++ [.refreshSent i token false] }
  | .send bearer => s' = { s with log := s.log ++ bearer.toList.map (.sent i) }
  | _ => False

variable [DecidableEq I]

/-- Any number of requests that share an authenticator. -/
def requests (config : Config) : System (AuthState I) I (Request Nat) :=
  programs (fun _ _ => False) (fun _ p => ∃ clonable, p = sendAuthenticated (some config) clonable)
    Performs Cancels

/-- Before any request. -/
def AuthState.start (credential : ProviderCredential) (issued : Set String) : AuthState I :=
  ⟨credential, none, issued, []⟩

end Runs

/-! The protocol of a request. -/

/-- What a request has to do with the lock. -/
inductive Stage where
  | free
  | holding (credential : ProviderCredential)
  /-- The server redeemed, and the new refresh token is not yet in place. -/
  | answered (refreshToken : String)
  /-- The server redeemed, and its answer was of no use. -/
  | spoiled

structure Phase where
  stage : Stage
  sent : List String

/-- A request that holds the credential. -/
def Stage.Settled : Stage → Prop
  | .holding _ => True
  | .spoiled => True
  | _ => False

def allows (phase : Phase) : AuthOp → Prop
  | .lock => phase.stage = .free
  | .write credential => ∃ token, phase.stage = .answered token ∧ credential.refreshToken = some token
  | .unlock => phase.stage.Settled
  | .refresh token _ _ => ∃ credential, phase.stage = .holding credential ∧
      credential.refreshToken = some token ∧ (phase.sent = [] ∨ phase.sent = [credential.accessToken])
  | .send bearer => phase.stage = .free ∧ phase.sent.length < 2 ∧ bearer.isSome
  | _ => True

def nextPhase (phase : Phase) : (op : AuthOp) → op.Answer → Phase
  | .lock, credential => { phase with stage := .holding credential }
  | .write credential, _ => { phase with stage := .holding credential }
  | .unlock, _ => { phase with stage := .free }
  | .refresh token _ _, .answered refreshed =>
    if refreshed.tokenType.any fun tokenType => !isBearer tokenType then
      { phase with stage := .spoiled }
    else { phase with stage := .answered (refreshed.refreshToken.getD token) }
  | .send bearer, _ => { phase with sent := phase.sent ++ bearer.toList }
  | _, _ => phase

abbrev Keeps {α : Type} (x : Request α) (phase : Phase) (ends : Phase → α → Prop) : Prop :=
  Follows nextPhase allows ends x phase

section Protocol
variable {phase : Phase} {sent : List String}

theorem keeps_demand (op : AuthOp) (h : allows phase op) :
    Keeps (demand op) phase fun later r => later = nextPhase phase op r :=
  ⟨h, fun _ => rfl, fun _ => trivial⟩

theorem keeps_expiryAfter (expiresIn : Option Nat) :
    Keeps (expiryAfter expiresIn) phase fun later _ => later = phase := by
  unfold expiryAfter
  cases expiresIn with
  | none => exact rfl
  | some seconds =>
    simp only
    split
    · exact (keeps_demand .unixTime trivial).bind fun later now h => h
    · exact rfl

/-- A refresh redeems the token that the request holds, at most once. -/
theorem keeps_refreshCredential {credential : ProviderCredential}
    (hsent : sent = [] ∨ sent = [credential.accessToken]) :
    Keeps (refreshCredential credential) ⟨.holding credential, sent⟩ fun later result =>
      later.sent = sent ∧
        match result with
        | .ok refreshed => ∃ token, later.stage = .answered token ∧ refreshed.refreshToken = some token
        | .error _ => later.stage.Settled := by
  unfold refreshCredential
  split
  · rename_i access token expires endpoint client scope
    refine (keeps_demand (.refresh token endpoint client) ⟨_, rfl, rfl, hsent⟩).bind ?_
    rintro _ answer rfl
    cases answer with
    | unreachable error => exact ⟨rfl, trivial⟩
    | refused status body => exact ⟨rfl, trivial⟩
    | unreadable error => exact ⟨rfl, trivial⟩
    | answered refreshed =>
      simp only [nextPhase]
      split
      · exact ⟨rfl, trivial⟩
      · refine (keeps_expiryAfter refreshed.expiresIn).bind ?_
        rintro _ expiresAt rfl
        refine ⟨rfl, _, rfl, ?_⟩
        cases h : refreshed.refreshToken <;> simp [ProviderCredential.refreshToken]
  · exact ⟨rfl, trivial⟩

theorem keeps_replaceCredential {credential : ProviderCredential} (storageId : Option String)
    (hsent : sent = [] ∨ sent = [credential.accessToken]) :
    Keeps (replaceCredential storageId credential) ⟨.holding credential, sent⟩ fun later _ =>
      later.sent = sent ∧ later.stage.Settled := by
  refine (keeps_refreshCredential hsent).bind ?_
  rintro later result ⟨rfl, hresult⟩
  cases result with
  | error error => exact ⟨rfl, hresult⟩
  | ok refreshed =>
    obtain ⟨token, hstage, htoken⟩ := hresult
    refine (keeps_demand (.write refreshed) ⟨token, hstage, htoken⟩).bind ?_
    rintro _ - rfl
    cases storageId with
    | none => exact ⟨rfl, trivial⟩
    | some id =>
      refine (keeps_demand (.store id refreshed) trivial).bind ?_
      rintro _ - rfl
      exact ⟨rfl, trivial⟩

/-- What a request does between taking the lock and giving it back. -/
theorem keeps_locked {α β : Type} {critical : ProviderCredential → Request α}
    {result : α → Except HttpError β}
    (h : ∀ credential, Keeps (critical credential) ⟨.holding credential, sent⟩ fun later _ =>
      later.sent = sent ∧ later.stage.Settled) :
    Keeps (do
      let a ← critical (← lock)
      unlock
      Prog.ofExcept (result a)) ⟨.free, sent⟩ fun later _ => later = ⟨.free, sent⟩ := by
  refine (keeps_demand .lock (show allows ⟨.free, sent⟩ .lock from rfl)).bind ?_
  rintro _ credential rfl
  refine (h credential).bind ?_
  rintro later a ⟨rfl, hsettled⟩
  refine (keeps_demand .unlock hsettled).bind ?_
  rintro _ - rfl
  cases result a with
  | ok b => exact rfl
  | error error => trivial

theorem keeps_needsRefresh (forceRefresh : Bool) (credential : ProviderCredential) :
    Keeps (needsRefresh forceRefresh credential) phase fun later _ => later = phase := by
  unfold needsRefresh
  split
  · exact rfl
  · split
    · exact rfl
    · split
      · exact rfl
      · exact (keeps_demand .unixTime trivial).bind fun later now h => h

theorem keeps_accessToken (storageId : Option String) (forceRefresh : Bool) :
    Keeps (accessToken storageId forceRefresh) ⟨.free, []⟩ fun later _ => later = ⟨.free, []⟩ := by
  refine keeps_locked fun credential => ?_
  refine (keeps_needsRefresh forceRefresh credential).bind ?_
  rintro _ needs rfl
  cases needs with
  | true => exact keeps_replaceCredential storageId (.inl rfl)
  | false => exact ⟨rfl, trivial⟩

/-- The rejected token is the one that was sent, and is still in place where it is refreshed. -/
theorem keeps_refreshAfterUnauthorized (storageId : Option String) (rejected : String) :
    Keeps (refreshAfterUnauthorized storageId rejected) ⟨.free, [rejected]⟩ fun later _ =>
      later = ⟨.free, [rejected]⟩ := by
  refine keeps_locked fun credential => ?_
  unfold credentialAfter
  split
  · exact ⟨rfl, trivial⟩
  · split
    · exact ⟨rfl, trivial⟩
    · rename_i hsame
      refine (keeps_replaceCredential storageId (.inr (by rw [not_not.mp hsame]))).bind ?_
      exact fun later _ h => h

theorem keeps_sendOnce {bearer : String} (hsent : sent.length < 2) :
    Keeps (sendOnce (some bearer)) ⟨.free, sent⟩ fun later _ => later = ⟨.free, sent ++ [bearer]⟩ := by
  refine (keeps_demand (.send (some bearer)) ⟨rfl, hsent, rfl⟩).bind ?_
  rintro _ response rfl
  cases response with
  | ok status => exact rfl
  | error error => trivial

theorem keeps_sendAuthenticated (config : Config) (clonable : Bool) :
    Keeps (sendAuthenticated (some config) clonable) ⟨.free, []⟩ fun _ _ => True := by
  refine (keeps_accessToken config.storageId false).bind ?_
  rintro _ token rfl
  refine (keeps_sendOnce (by decide)).bind ?_
  rintro _ status rfl
  split
  · trivial
  · split
    · trivial
    · refine (keeps_refreshAfterUnauthorized config.storageId token).bind ?_
      rintro _ fresh rfl
      cases fresh with
      | none => trivial
      | some fresh => exact (keeps_sendOnce (by simp)).weaken fun _ _ _ => trivial

end Protocol

/-! What holds of every run. -/

section SingleFlight
variable {I : Type} [DecidableEq I]

def AuthEvent.sentBy (i : I) : AuthEvent I → Option String
  | .sent j bearer => if j = i then some bearer else none
  | _ => none

/-- The access tokens that a request was sent with. -/
def sentBy (i : I) (log : List (AuthEvent I)) : List String := log.filterMap (AuthEvent.sentBy i)

def AuthEvent.replaces {I : Type} (current : String) : AuthEvent I → String
  | .replaced _ accessToken => accessToken
  | _ => current

/-- The access token in place after some events. -/
def accessAfter {I : Type} (start : String) (log : List (AuthEvent I)) : String :=
  log.foldl AuthEvent.replaces start

/-- No redeemed token is sent again, a request refreshes after it was sent only while the token it
was sent with is in place, and none is sent more than twice. -/
structure SingleFlight (start : String) (log : List (AuthEvent I)) : Prop where
  fresh : ∀ before i token redeemed, before ++ [.refreshSent i token redeemed] <+: log →
    ¬ Redeemed before token
  reuses : ∀ before i token redeemed, before ++ [.refreshSent i token redeemed] <+: log →
    ∀ bearer ∈ sentBy i before, accessAfter start before = bearer
  twice : ∀ i, (sentBy i log).length ≤ 2

/-- Refresh tokens that the server gave out and did not redeem. -/
def Usable (s : AuthState I) (refreshToken : Option String) : Prop :=
  ∀ token ∈ refreshToken, token ∈ s.issued ∧ ¬ Redeemed s.log token

structure Invariant (start : String) (s : AuthState I) : Prop where
  flight : SingleFlight start s.log
  current : accessAfter start s.log = s.credential.accessToken
  issued : ∀ token, Redeemed s.log token → token ∈ s.issued
  free : s.holder = none → Usable s s.credential.refreshToken

def StageKnows (i : I) (s : AuthState I) : Stage → Prop
  | .free => s.holder ≠ some i
  | .holding credential =>
    s.holder = some i ∧ s.credential = credential ∧ Usable s credential.refreshToken
  | .answered token => s.holder = some i ∧ Usable s (some token)
  | .spoiled => False

def KnowsPhase (i : I) (phase : Phase) (s : AuthState I) : Prop :=
  sentBy i s.log = phase.sent ∧ StageKnows i s phase.stage

def Waits (i : I) (s : AuthState I) : Prop := sentBy i s.log = [] ∧ s.holder ≠ some i

/-- What others do beside a request: behind its lock, nothing. -/
structure Others (i : I) (s s' : AuthState I) : Prop where
  sent : sentBy i s'.log = sentBy i s.log
  free : s.holder ≠ some i → s'.holder ≠ some i
  held : s.holder = some i → s'.holder = some i ∧ s'.credential = s.credential ∧
    s'.issued = s.issued ∧ ∀ token, Redeemed s'.log token → Redeemed s.log token

variable {start : String} {s s' : AuthState I} {i : I} {log : List (AuthEvent I)}

theorem sentBy_snoc (i : I) (log : List (AuthEvent I)) (e : AuthEvent I) :
    sentBy i (log ++ [e]) = sentBy i log ++ (e.sentBy i).toList := by
  rw [sentBy, List.filterMap_append]
  cases h : e.sentBy i <;> simp [sentBy, h]

omit [DecidableEq I] in
theorem accessAfter_snoc (start : String) (log : List (AuthEvent I)) (e : AuthEvent I) :
    accessAfter start (log ++ [e]) = e.replaces (accessAfter start log) := by
  rw [accessAfter, List.foldl_append]
  rfl

omit [DecidableEq I] in
theorem redeemed_snoc {token : String} {e : AuthEvent I} :
    Redeemed (log ++ [e]) token ↔ Redeemed log token ∨ ∃ i, e = .refreshSent i token true := by
  simp only [Redeemed, List.mem_append, List.mem_singleton, exists_or, eq_comm]

/-- An event that is no refresh and no third sending. -/
theorem SingleFlight.snoc (h : SingleFlight start log) {e : AuthEvent I}
    (hrefresh : ∀ i token redeemed, e = .refreshSent i token redeemed →
      ¬ Redeemed log token ∧ ∀ bearer ∈ sentBy i log, accessAfter start log = bearer)
    (hsent : ∀ i bearer, e = .sent i bearer → (sentBy i log).length < 2) :
    SingleFlight start (log ++ [e]) where
  fresh before i token redeemed hprefix := by
    rcases List.prefix_concat_iff.mp hprefix with heq | hprefix
    · obtain ⟨rfl, he⟩ := List.append_inj' heq rfl
      exact (hrefresh i token redeemed (List.cons.inj he).1.symm).1
    · exact h.fresh before i token redeemed hprefix
  reuses before i token redeemed hprefix := by
    rcases List.prefix_concat_iff.mp hprefix with heq | hprefix
    · obtain ⟨rfl, he⟩ := List.append_inj' heq rfl
      exact (hrefresh i token redeemed (List.cons.inj he).1.symm).2
    · exact h.reuses before i token redeemed hprefix
  twice i := by
    rw [sentBy_snoc, List.length_append]
    have hold := h.twice i
    cases e with
    | sent j bearer =>
      by_cases hj : j = i
      · have hlt := hsent i bearer (by rw [hj])
        simp [AuthEvent.sentBy, hj]
        omega
      · simpa [AuthEvent.sentBy, hj] using hold
    | refreshSent j token redeemed => simpa [AuthEvent.sentBy] using hold
    | replaced j accessToken => simpa [AuthEvent.sentBy] using hold

omit [DecidableEq I] in
theorem Usable.mono {token : Option String} (h : Usable s token) (hissued : s.issued ⊆ s'.issued)
    (hredeemed : ∀ t, Redeemed s'.log t → Redeemed s.log t) : Usable s' token :=
  fun t ht => ⟨hissued (h t ht).1, fun hr => (h t ht).2 (hredeemed t hr)⟩

theorem StageKnows.stable (hothers : Others i s s') {stage : Stage} (h : StageKnows i s stage) :
    StageKnows i s' stage := by
  cases stage with
  | free => exact hothers.free h
  | holding credential =>
    obtain ⟨hholder, hcredential, husable⟩ := h
    obtain ⟨hholder', hsame, hissued, hredeemed⟩ := hothers.held hholder
    exact ⟨hholder', hsame.trans hcredential, husable.mono hissued.ge hredeemed⟩
  | answered token =>
    obtain ⟨hholder, husable⟩ := h
    obtain ⟨hholder', -, hissued, hredeemed⟩ := hothers.held hholder
    exact ⟨hholder', husable.mono hissued.ge hredeemed⟩
  | spoiled => exact h

theorem Others.of_eq {j : I} (h : s' = s) : Others j s s' := by
  subst h
  exact ⟨rfl, id, fun h => ⟨h, rfl, rfl, fun _ => id⟩⟩

/-- The holder of the lock does as it likes beside its requests, and may give the lock up. -/
theorem Others.of_holder {j : I} (hj : j ≠ i) (hholder : s.holder = some i)
    (hsent : sentBy j s'.log = sentBy j s.log) (hholder' : ∀ k, s'.holder = some k → k = i) :
    Others j s s' where
  sent := hsent
  free _ h := hj (hholder' j h)
  held h := absurd (Option.some.inj (h.symm.trans hholder)) hj

omit [DecidableEq I] in
theorem redeemed_snoc_false {token refreshToken : String} :
    Redeemed (log ++ [.refreshSent i refreshToken false]) token ↔ Redeemed log token := by
  rw [redeemed_snoc]
  simp

omit [DecidableEq I] in
theorem redeemed_snoc_true {token refreshToken : String} :
    Redeemed (log ++ [.refreshSent i refreshToken true]) token ↔
      Redeemed log token ∨ token = refreshToken := by
  rw [redeemed_snoc]
  simp [eq_comm]

omit [DecidableEq I] in
theorem redeemed_snoc_sent {token bearer : String} :
    Redeemed (log ++ [.sent i bearer]) token ↔ Redeemed log token := by
  rw [redeemed_snoc]
  simp

omit [DecidableEq I] in
theorem redeemed_snoc_replaced {token accessToken : String} :
    Redeemed (log ++ [.replaced i accessToken]) token ↔ Redeemed log token := by
  rw [redeemed_snoc]
  simp

theorem sentBy_snoc_sent (j : I) (bearer : String) :
    sentBy j (log ++ [.sent i bearer]) = if i = j then sentBy j log ++ [bearer] else sentBy j log := by
  rw [sentBy_snoc, AuthEvent.sentBy]
  split <;> simp

@[simp] theorem sentBy_snoc_refreshSent (j : I) (token : String) (redeemed : Bool) :
    sentBy j (log ++ [.refreshSent i token redeemed]) = sentBy j log :=
  (sentBy_snoc j log _).trans (List.append_nil _)

@[simp] theorem sentBy_snoc_replaced (j : I) (accessToken : String) :
    sentBy j (log ++ [.replaced i accessToken]) = sentBy j log :=
  (sentBy_snoc j log _).trans (List.append_nil _)

/-- A refresh by the holder, whose token is neither redeemed nor stale. -/
theorem SingleFlight.refresh {phase : Phase} {credential : ProviderCredential} {token : String}
    (hinv : Invariant start s) (hknows : KnowsPhase i phase s)
    (hstage : phase.stage = .holding credential) (htoken : credential.refreshToken = some token)
    (hsent : phase.sent = [] ∨ phase.sent = [credential.accessToken]) (redeemed : Bool) :
    SingleFlight start (s.log ++ [.refreshSent i token redeemed]) := by
  obtain ⟨hlog, hknows⟩ := hknows
  rw [hstage] at hknows
  obtain ⟨-, hcredential, husable⟩ := hknows
  refine hinv.flight.snoc (fun j t r heq => ?_) fun _ _ heq => nomatch heq
  obtain ⟨rfl, rfl, rfl⟩ := AuthEvent.refreshSent.inj heq
  refine ⟨(husable token htoken).2, fun bearer hbearer => ?_⟩
  rw [hlog] at hbearer
  rcases hsent with hnil | hone
  · rw [hnil] at hbearer
    exact nomatch hbearer
  · rw [hone, List.mem_singleton] at hbearer
    rw [hinv.current, hcredential, hbearer]

/-- A refresh that the server did not redeem. -/
theorem Invariant.refused {phase : Phase} {credential : ProviderCredential} {token : String}
    (hinv : Invariant start s) (hknows : KnowsPhase i phase s)
    (hstage : phase.stage = .holding credential) (htoken : credential.refreshToken = some token)
    (hsent : phase.sent = [] ∨ phase.sent = [credential.accessToken]) {holder : Option I}
    (hholder : ∀ k, holder = some k → k = i)
    (hs' : s' = { s with holder := holder, log := s.log ++ [.refreshSent i token false] }) :
    Invariant start s' ∧ ∀ j, j ≠ i → Others j s s' := by
  have hflight := SingleFlight.refresh hinv hknows hstage htoken hsent false
  rw [KnowsPhase, hstage] at hknows
  obtain ⟨-, hheld, hcredential, husable⟩ := hknows
  subst hs'
  constructor
  · refine ⟨hflight, ?_, fun t ht => ?_, fun _ t ht => ?_⟩
    · rw [accessAfter_snoc]
      exact hinv.current
    · exact hinv.issued t (redeemed_snoc_false.mp ht)
    · rw [← hcredential] at husable
      exact ⟨(husable t ht).1, fun hr => (husable t ht).2 (redeemed_snoc_false.mp hr)⟩
  · exact fun j hj => .of_holder hj hheld (sentBy_snoc_refreshSent j token false) hholder

theorem Invariant.redeemed {phase : Phase} {credential : ProviderCredential} {token fresh : String}
    (hinv : Invariant start s) (hknows : KnowsPhase i phase s)
    (hstage : phase.stage = .holding credential) (htoken : credential.refreshToken = some token)
    (hsent : phase.sent = [] ∨ phase.sent = [credential.accessToken]) (hfresh : fresh ∉ s.issued)
    (hs' : s' = { s with
      issued := insert fresh s.issued
      log := s.log ++ [.refreshSent i token true] }) :
    Invariant start s' ∧ KnowsPhase i ⟨.answered fresh, phase.sent⟩ s' ∧
      ∀ j, j ≠ i → Others j s s' := by
  have hflight := SingleFlight.refresh hinv hknows hstage htoken hsent true
  obtain ⟨hlog, hknows⟩ := hknows
  rw [hstage] at hknows
  obtain ⟨hheld, -, husable⟩ := hknows
  have hissued : token ∈ s.issued := (husable token htoken).1
  subst hs'
  refine ⟨⟨hflight, ?_, fun t ht => ?_, fun hfree => ?_⟩, ⟨?_, hheld, fun t ht => ?_⟩, ?_⟩
  · rw [accessAfter_snoc]
    exact hinv.current
  · rcases redeemed_snoc_true.mp ht with ht | rfl
    · exact .inr (hinv.issued t ht)
    · exact .inr hissued
  · exact nomatch hheld.symm.trans hfree
  · exact (sentBy_snoc_refreshSent i token true).trans hlog
  · obtain rfl := Option.some.inj ht
    refine ⟨.inl rfl, fun hr => hfresh ?_⟩
    rcases redeemed_snoc_true.mp hr with hr | rfl
    · exact hinv.issued _ hr
    · exact hissued
  · exact fun j hj => .of_holder hj hheld (sentBy_snoc_refreshSent j token true) fun k hk =>
      Option.some.inj (hk.symm.trans hheld)

/-- A request is sent, beside whatever happens behind the lock. -/
theorem Invariant.sends {phase : Phase} {bearer : String} (hinv : Invariant start s)
    (hknows : KnowsPhase i phase s) (hstage : phase.stage = .free) (htwice : phase.sent.length < 2)
    (hs' : s' = { s with log := s.log ++ [.sent i bearer] }) :
    Invariant start s' ∧ KnowsPhase i ⟨.free, phase.sent ++ [bearer]⟩ s' ∧
      ∀ j, j ≠ i → Others j s s' := by
  obtain ⟨hlog, hknows⟩ := hknows
  rw [hstage] at hknows
  subst hs'
  refine ⟨⟨?_, ?_, fun t ht => ?_, fun hfree => ?_⟩, ⟨?_, hknows⟩, fun j hj => ⟨?_, id, ?_⟩⟩
  · refine hinv.flight.snoc (fun _ _ _ heq => nomatch heq) fun j b heq => ?_
    obtain ⟨rfl, rfl⟩ := AuthEvent.sent.inj heq
    rwa [hlog]
  · rw [accessAfter_snoc]
    exact hinv.current
  · exact hinv.issued t (redeemed_snoc_sent.mp ht)
  · exact (hinv.free hfree).mono subset_rfl fun t => redeemed_snoc_sent.mp
  · exact (sentBy_snoc_sent i bearer).trans (by rw [if_pos rfl, hlog])
  · exact (sentBy_snoc_sent j bearer).trans (if_neg hj.symm)
  · exact fun hheld => ⟨hheld, rfl, rfl, fun t => redeemed_snoc_sent.mp⟩

theorem Invariant.locks {phase : Phase} (hinv : Invariant start s) (hknows : KnowsPhase i phase s)
    (hfree : s.holder = none) (hs' : s' = { s with holder := some i }) :
    Invariant start s' ∧ KnowsPhase i ⟨.holding s.credential, phase.sent⟩ s' ∧
      ∀ j, j ≠ i → Others j s s' := by
  subst hs'
  refine ⟨⟨hinv.flight, hinv.current, hinv.issued, fun h => nomatch h⟩,
    ⟨hknows.1, rfl, rfl, hinv.free hfree⟩, fun j hj => ⟨rfl, fun _ h => ?_, fun h => ?_⟩⟩
  · exact hj (Option.some.inj h).symm
  · exact nomatch hfree.symm.trans h

theorem Invariant.unlocks {phase : Phase} (hinv : Invariant start s) (hknows : KnowsPhase i phase s)
    (hstage : phase.stage.Settled) (hs' : s' = { s with holder := none }) :
    Invariant start s' ∧ KnowsPhase i ⟨.free, phase.sent⟩ s' ∧ ∀ j, j ≠ i → Others j s s' := by
  obtain ⟨hlog, hknows⟩ := hknows
  generalize phase.stage = stage at hstage hknows
  cases stage with
  | free => exact hstage.elim
  | answered token => exact hstage.elim
  | spoiled => exact hknows.elim
  | holding credential =>
    obtain ⟨hheld, rfl, husable⟩ := hknows
    subst hs'
    exact ⟨⟨hinv.flight, hinv.current, hinv.issued, fun _ => husable⟩, ⟨hlog, fun h => nomatch h⟩,
      fun j hj => .of_holder hj hheld rfl fun k h => nomatch h⟩

theorem Invariant.writes {phase : Phase} {credential : ProviderCredential} {token : String}
    (hinv : Invariant start s) (hknows : KnowsPhase i phase s)
    (hstage : phase.stage = .answered token) (htoken : credential.refreshToken = some token)
    (hs' : s' = { s with
      credential := credential
      log := s.log ++ [.replaced i credential.accessToken] }) :
    Invariant start s' ∧ KnowsPhase i ⟨.holding credential, phase.sent⟩ s' ∧
      ∀ j, j ≠ i → Others j s s' := by
  obtain ⟨hlog, hknows⟩ := hknows
  rw [hstage] at hknows
  obtain ⟨hheld, husable⟩ := hknows
  subst hs'
  refine ⟨⟨?_, accessAfter_snoc _ _ _, fun t ht => ?_, fun h => ?_⟩, ⟨?_, hheld, rfl, ?_⟩,
    fun j hj => ?_⟩
  · exact hinv.flight.snoc (fun _ _ _ h => nomatch h) fun _ _ h => nomatch h
  · exact hinv.issued t (redeemed_snoc_replaced.mp ht)
  · exact nomatch hheld.symm.trans h
  · exact (sentBy_snoc_replaced i _).trans hlog
  · rw [htoken]
    exact husable.mono subset_rfl fun t => redeemed_snoc_replaced.mp
  · exact .of_holder hj hheld (sentBy_snoc_replaced j _) fun k hk =>
      Option.some.inj (hk.symm.trans hheld)

/-- One operation of a request. -/
theorem performs_keeps {phase : Phase} {op : AuthOp} {r : op.Answer} (hallows : allows phase op)
    (hperforms : Performs i s op r s') (hinv : Invariant start s) (hknows : KnowsPhase i phase s) :
    Invariant start s' ∧ KnowsPhase i (nextPhase phase op r) s' ∧ ∀ j, j ≠ i → Others j s s' := by
  cases op with
  | lock =>
    obtain ⟨hfree, rfl, hs'⟩ := hperforms
    exact hinv.locks hknows hfree hs'
  | write credential =>
    obtain ⟨token, hstage, htoken⟩ := hallows
    exact hinv.writes hknows hstage htoken hperforms
  | unlock => exact hinv.unlocks hknows hallows hperforms
  | unixTime =>
    obtain rfl : s' = s := hperforms
    exact ⟨hinv, hknows, fun _ _ => .of_eq rfl⟩
  | store id credential =>
    obtain rfl : s' = s := hperforms
    exact ⟨hinv, hknows, fun _ _ => .of_eq rfl⟩
  | send bearer =>
    obtain ⟨hstage, htwice, hbearer⟩ := hallows
    obtain ⟨bearer, rfl⟩ := Option.isSome_iff_exists.mp hbearer
    have hsends := hinv.sends hknows hstage htwice hperforms
    rwa [← hstage] at hsends
  | refresh token endpoint client =>
    obtain ⟨credential, hstage, htoken, hsent⟩ := hallows
    have hrefused (hlog : s' = { s with log := s.log ++ [.refreshSent i token false] }) :
        Invariant start s' ∧ KnowsPhase i phase s' ∧ ∀ j, j ≠ i → Others j s s' := by
      have hheld := hknows.2
      rw [hstage] at hheld
      have hholder (k : I) (hk : s.holder = some k) : k = i :=
        Option.some.inj (hk.symm.trans hheld.1)
      obtain ⟨hinv', hothers⟩ := hinv.refused hknows hstage htoken hsent hholder hlog
      refine ⟨hinv', ⟨?_, ?_⟩, hothers⟩
      · rw [hlog]
        exact (sentBy_snoc_refreshSent i token false).trans hknows.1
      · rw [hstage, hlog]
        exact ⟨hheld.1, hheld.2.1, hheld.2.2.mono subset_rfl fun t => redeemed_snoc_false.mp⟩
    cases r with
    | unreachable error => exact hrefused hperforms
    | refused status body => exact hrefused hperforms
    | unreadable error => exact hrefused hperforms
    | answered refreshed =>
      obtain ⟨-, hbearer, fresh, hsome, hfresh, hs'⟩ := hperforms
      have hspoiled : ¬ (refreshed.tokenType.any fun tokenType => !isBearer tokenType) := by
        cases htype : refreshed.tokenType with
        | none => simp
        | some tokenType => simp [hbearer tokenType htype]
      rw [nextPhase, if_neg hspoiled, hsome, Option.getD_some]
      exact hinv.redeemed hknows hstage htoken hsent hfresh hs'

/-- A request that is dropped where it waits. -/
theorem cancels_keeps {phase : Phase} {op : AuthOp} (hallows : allows phase op)
    (hcancels : Cancels i op s s') (hinv : Invariant start s) (hknows : KnowsPhase i phase s) :
    Invariant start s' ∧ ∀ j, j ≠ i → Others j s s' := by
  cases op with
  | lock =>
    obtain rfl : s' = s := hcancels
    exact ⟨hinv, fun _ _ => .of_eq rfl⟩
  | refresh token endpoint client =>
    obtain ⟨credential, hstage, htoken, hsent⟩ := hallows
    exact hinv.refused hknows hstage htoken hsent (fun k (h : none = some k) => nomatch h) hcancels
  | send bearer =>
    obtain ⟨hstage, htwice, hbearer⟩ := hallows
    obtain ⟨bearer, rfl⟩ := Option.isSome_iff_exists.mp hbearer
    obtain ⟨hinv', -, hothers⟩ := hinv.sends hknows hstage htwice hcancels
    exact ⟨hinv', hothers⟩
  | write credential => exact hcancels.elim
  | unlock => exact hcancels.elim
  | unixTime => exact hcancels.elim
  | store id credential => exact hcancels.elim

theorem requests_outline (config : Config) (start : String) :
    ProtocolOutline (fun _ _ => False)
      (fun (_ : I) p => ∃ clonable, p = sendAuthenticated (some config) clonable) Performs Cancels
      nextPhase allows Others (Invariant start) Waits KnowsPhase where
  refl _ _ := .of_eq rfl
  stable i phase s s' hothers _ _ hknows := ⟨hothers.sent.trans hknows.1, hknows.2.stable hothers⟩
  waiting i s s' hothers hwaits := ⟨hothers.sent.trans hwaits.1, hothers.free hwaits.2⟩
  env _ _ h := h.elim
  starts i p s hp _ hwaits := by
    obtain ⟨clonable, rfl⟩ := hp
    exact ⟨⟨.free, []⟩, keeps_sendAuthenticated config clonable, hwaits⟩
  performs _ _ _ _ _ _ := performs_keeps
  cancels _ _ _ _ _ := cancels_keeps

end SingleFlight

section Main
variable {I : Type} [DecidableEq I]

/-- Requests of any number redeem no token twice, refresh only what is in place, and send each
request at most twice. -/
theorem single_flight (config : Config) (credential : ProviderCredential) (issued : Set String)
    (hissued : ∀ token ∈ credential.refreshToken, token ∈ issued)
    {w : World (AuthState I) I (Request Nat)}
    (h : (requests config).Reachable (AuthState.start credential issued) w) :
    SingleFlight credential.accessToken w.shared.log := by
  have hstart : Invariant (I := I) credential.accessToken (AuthState.start credential issued) :=
    ⟨⟨fun _ _ _ _ hprefix => ?_, fun _ _ _ _ hprefix => ?_, fun _ => Nat.zero_le _⟩, rfl,
      fun _ hr => ?_, fun _ token ht => ⟨hissued token ht, fun hr => ?_⟩⟩
  · exact ((requests_outline config _).reachable hstart (fun _ => ⟨rfl, fun h => nomatch h⟩) h).flight
  · exact absurd (List.prefix_nil.mp hprefix) (by simp)
  · exact absurd (List.prefix_nil.mp hprefix) (by simp)
  · obtain ⟨_, hmem⟩ := hr
    exact nomatch hmem
  · obtain ⟨_, hmem⟩ := hr
    exact nomatch hmem

/-- A request whose token is rejected, refreshed and replaced. -/
theorem rejected_single_flight : ∃ w : World (AuthState Unit) Unit (Request Nat),
    w.shared.log = [.sent () "a0", .refreshSent () "r0" true, .replaced () "a1", .sent () "a1"] ∧
      SingleFlight "a0" w.shared.log := by
  have h0 : (requests (I := Unit) ⟨none⟩).Reachable
      (AuthState.start (.oauth "a0" (some "r0") none "endpoint" "client" none) {"r0"}) ⟨_, _⟩ := .start
  have h1 := h0.begins (i := ()) rfl ⟨true, rfl⟩
  have h2 := programs_performs h1 () .lock _ rfl ⟨rfl, rfl, rfl⟩
  have h3 := programs_performs h2 () .unlock () rfl rfl
  have h4 := programs_performs h3 () (.send "a0") (.ok 401) rfl rfl
  have h5 := programs_performs h4 () .lock _ rfl ⟨rfl, rfl, rfl⟩
  have h6 := programs_performs h5 () (.refresh "r0" "endpoint" "client")
    (.answered ⟨"a1", some "r1", none, none, none⟩) rfl
    ⟨by simp [Redeemed, AuthState.start], by simp, "r1", rfl, by simp [AuthState.start], rfl⟩
  have h7 := programs_performs h6 () (.write _) () rfl rfl
  have h8 := programs_performs h7 () .unlock () rfl rfl
  have h9 := programs_performs h8 () (.send "a1") (.ok 200) rfl rfl
  exact ⟨_, rfl, single_flight ⟨none⟩ _ _ (by simp [ProviderCredential.refreshToken]) h9⟩

end Main

end Authenticator

end AuruPm
