import AuruPm.Lib.Protocol
import AuruPm.Server
import Mathlib.Data.List.Infix

/-!
# Signing keys of the identity provider

A verification selects its key among cached ones, and fetches the key set under a lock where none
qualifies, at most every thirty seconds.
-/

namespace AuruPm

set_option autoImplicit false

open Threads

namespace Server

inductive Algorithm where
  | hs256 | hs384 | hs512
  | es256 | es384
  | rs256 | rs384 | rs512
  | ps256 | ps384 | ps512
  | edDSA
  deriving DecidableEq, Repr

inductive KeyAlgorithm where
  | hs256 | hs384 | hs512
  | es256 | es384
  | rs256 | rs384 | rs512
  | ps256 | ps384 | ps512
  | edDSA
  | encryption (name : String)
  deriving DecidableEq, Repr

inductive PublicKeyUse where
  | signature
  | encryption
  | other (use : String)
  deriving DecidableEq, Repr

inductive KeyOperations where
  | sign | verify | encrypt | decrypt | wrapKey | unwrapKey | deriveKey | deriveBits
  | other (operation : String)
  deriving DecidableEq, Repr

namespace JwtTokenVerifier

variable {I K : Type}

/-- A published key; `decodingKey` is what its key material amounts to. -/
structure Jwk (K : Type) where
  publicKeyUse : Option PublicKeyUse
  keyOperations : Option (List KeyOperations)
  keyAlgorithm : Option KeyAlgorithm
  keyId : Option String
  decodingKey : Option K

structure JwkVerificationKey (K : Type) where
  id : Option String
  algorithm : Option Algorithm
  key : K
  deriving DecidableEq

def jwkAlgorithm : KeyAlgorithm → Option Algorithm
  | .rs256 => some .rs256
  | .rs384 => some .rs384
  | .rs512 => some .rs512
  | .ps256 => some .ps256
  | .ps384 => some .ps384
  | .ps512 => some .ps512
  | .es256 => some .es256
  | .es384 => some .es384
  | .edDSA => some .edDSA
  | _ => none

def jwkVerificationKey (jwk : Jwk K) : Option (JwkVerificationKey K) :=
  if jwk.publicKeyUse = some .encryption ∨
      (jwk.keyOperations.any fun operations => !operations.contains .verify) = true then none
  else do
    let algorithm ←
      match jwk.keyAlgorithm with
      | some algorithm => (jwkAlgorithm algorithm).map some
      | none => some none
    return ⟨jwk.keyId, algorithm, ← jwk.decodingKey⟩

/-- What a token says about its key. -/
structure Header where
  kid : Option String
  alg : Algorithm
  deriving DecidableEq

def qualifies (header : Header) (candidate : JwkVerificationKey K) : Bool :=
  candidate.algorithm.all (· == header.alg) && header.kid.all fun kid => candidate.id == some kid

def selectKey (keys : List (JwkVerificationKey K)) (header : Header) : Option K :=
  match keys.filter (qualifies header) with
  | [] => none
  | candidate :: rest =>
    if header.kid.isNone && !rest.isEmpty then none else some candidate.key

/-- A key of the token's algorithm and id, without an id the only one. -/
structure Matches (keys : List (JwkVerificationKey K)) (header : Header) (key : K) : Prop where
  candidate : ∃ candidate ∈ keys, candidate.key = key ∧
    (∀ declared ∈ candidate.algorithm, declared = header.alg) ∧
    ∀ kid ∈ header.kid, candidate.id = some kid
  single : header.kid = none → (keys.filter (qualifies header)).length = 1

theorem qualifies_iff {header : Header} {candidate : JwkVerificationKey K} :
    qualifies header candidate = true ↔ (∀ declared ∈ candidate.algorithm, declared = header.alg) ∧
      ∀ kid ∈ header.kid, candidate.id = some kid := by
  simp [qualifies, Option.all_eq_true]

theorem selectKey_matches {keys : List (JwkVerificationKey K)} {header : Header} {key : K}
    (h : selectKey keys header = some key) : Matches keys header key := by
  unfold selectKey at h
  cases hfilter : keys.filter (qualifies header) with
  | nil =>
    rw [hfilter] at h
    exact nomatch h
  | cons candidate rest =>
    rw [hfilter] at h
    obtain ⟨hnot, heq⟩ : ¬ (header.kid.isNone && !rest.isEmpty) = true ∧ candidate.key = key := by
      simpa using h
    have hmem : candidate ∈ keys.filter (qualifies header) := hfilter ▸ List.mem_cons_self
    obtain ⟨hin, hqualifies⟩ := List.mem_filter.mp hmem
    refine ⟨⟨candidate, hin, heq, qualifies_iff.mp hqualifies⟩, fun hkid => ?_⟩
    rw [hfilter]
    cases rest with
    | nil => rfl
    | cons second rest => exact absurd (by simp [hkid]) hnot

/-- What comes back from the endpoint of the key set. -/
inductive JwksAnswer (K : Type) where
  | unreachable (error : String)
  | refused (error : String)
  | unreadable (error : String)
  | published (set : List (Jwk K))

/-- What `fetch_jwks` makes of an answer. -/
def usableKeys : JwksAnswer K → Except String (List (JwkVerificationKey K))
  | .unreachable error => .error ("fetch JWKS: " ++ error)
  | .refused error => .error ("fetch JWKS: " ++ error)
  | .unreadable error => .error ("decode JWKS: " ++ error)
  | .published set =>
    let keys := set.filterMap jwkVerificationKey
    if keys.isEmpty then
      .error "the identity provider JWKS contains no usable signing keys"
    else .ok keys

/-- What a verification does outside of itself: the cached keys, the lock with the time of the last
refresh behind it, the clock, and the endpoint. It returns by leaving, which drops the guard. -/
inductive KeyOp (K : Type) where
  | look
  | queue
  | lock
  | now
  | startFetch
  | awaitFetch
  | stamp (now : Nat)
  | install (keys : List (JwkVerificationKey K))
  | leave (result : Except AuthError K)

def KeyOp.Answer : KeyOp K → Type
  | .look => List (JwkVerificationKey K)
  | .queue => Unit
  | .lock => Option Nat
  | .now => Nat
  | .startFetch => Unit
  | .awaitFetch => JwksAnswer K
  | .stamp _ => Unit
  | .install _ => Unit
  | .leave _ => Unit

abbrev Lookup (K : Type) := Prog (KeyOp K) KeyOp.Answer Empty AuthError

def look : Lookup K (List (JwkVerificationKey K)) := demand KeyOp.look

/-- `refresh.lock().await` -/
def lockRefresh : Lookup K (Option Nat) := do
  demand KeyOp.queue
  demand KeyOp.lock

def now : Lookup K Nat := demand KeyOp.now

def fetchJwks : Lookup K (Except String (List (JwkVerificationKey K))) := do
  demand KeyOp.startFetch
  return usableKeys (← demand KeyOp.awaitFetch)

def leave (result : Except AuthError K) : Lookup K K := do
  demand (KeyOp.leave result)
  Prog.ofExcept result

/-- Thirty seconds, in nanoseconds. -/
def refreshInterval : Nat := 30 * 10 ^ 9

def refreshedLately : Option Nat → Lookup K Bool
  | none => return false
  | some last => return (← now) - last < refreshInterval

/-- Under the lock: fetches the key set and caches it. -/
def refreshKeys (header : Header) : Lookup K K := do
  let refreshed ← fetchJwks
  demand (KeyOp.stamp (← now))
  match refreshed with
  | .error _ => leave (.error .providerUnavailable)
  | .ok keys => do
    demand (KeyOp.install keys)
    leave ((selectKey keys header).elim (.error .invalidToken) .ok)

def keyFor (header : Header) : Lookup K K := do
  match selectKey (← look) header with
  | some key => leave (.ok key)
  | none => do
    let lastRefresh ← lockRefresh
    match selectKey (← look) header with
    | some key => leave (.ok key)
    | none =>
      if ← refreshedLately lastRefresh then leave (.error .invalidToken)
      else refreshKeys header

/-- A token: its header if that can be read, and its claims where it is valid under a key. -/
structure Token (K : Type) where
  header : Option Header
  decode : K → Algorithm → Option Value

def accepted : Algorithm → Bool
  | .hs256 | .hs384 | .hs512 => false
  | _ => true

def verify (policy : TokenValidationPolicy) (token : Token K) : Lookup K TokenIdentity :=
  match token.header with
  | none => .fail .invalidToken
  | some header =>
    if !accepted header.alg then .fail .invalidToken
    else do
      let key ← keyFor header
      match token.decode key header.alg with
      | none => .fail .invalidToken
      | some claims => Prog.ofExcept (policy.identityFromClaims claims)

/-! Runs. -/

/-- What verifications did that others could see. -/
inductive LookupEvent (I K : Type) where
  | looked (i : I)
  | queued (i : I)
  | fetchStarted (i : I) (now : Nat)
  | fetchEnded (i : I) (now : Nat) (answer : JwksAnswer K)
  | fetchDropped (i : I) (now : Nat)
  | installed (i : I) (keys : List (JwkVerificationKey K))
  | answered (i : I) (result : Except AuthError K)

def LookupEvent.by : LookupEvent I K → I
  | .looked i => i
  | .queued i => i
  | .fetchStarted i _ => i
  | .fetchEnded i _ _ => i
  | .fetchDropped i _ => i
  | .installed i _ => i
  | .answered i _ => i

namespace LookupEvent

def isFetch : LookupEvent I K → Bool
  | .fetchStarted _ _ => true
  | .fetchEnded _ _ _ => true
  | .fetchDropped _ _ => true
  | _ => false

/-- When a fetch came back, with keys or without. -/
def returned : LookupEvent I K → Option Nat
  | .fetchEnded _ now _ => some now
  | _ => none

/-- When a fetch was over. -/
def finished : LookupEvent I K → Option Nat
  | .fetchEnded _ now _ => some now
  | .fetchDropped _ now => some now
  | _ => none

def caches (current : List (JwkVerificationKey K)) : LookupEvent I K → List (JwkVerificationKey K)
  | .installed _ keys => keys
  | _ => current

end LookupEvent

structure KeyState (I K : Type) where
  now : Nat
  cached : List (JwkVerificationKey K)
  lastRefresh : Option Nat
  holder : Option I
  log : List (LookupEvent I K)

section Runs
variable [DecidableEq I]

/-- One operation; a fetch may bring any answer. -/
def Performs (i : I) (s : KeyState I K) : (op : KeyOp K) → op.Answer → KeyState I K → Prop
  | .look, keys, s' => keys = s.cached ∧ s' = { s with log := s.log ++ [.looked i] }
  | .queue, _, s' => s' = { s with log := s.log ++ [.queued i] }
  | .lock, last, s' => s.holder = none ∧ last = s.lastRefresh ∧ s' = { s with holder := some i }
  | .now, now, s' => now = s.now ∧ s' = s
  | .startFetch, _, s' => s' = { s with log := s.log ++ [.fetchStarted i s.now] }
  | .awaitFetch, answer, s' => s' = { s with log := s.log ++ [.fetchEnded i s.now answer] }
  | .stamp now, _, s' => s' = { s with lastRefresh := some now }
  | .install keys, _, s' => s' = { s with
      cached := keys
      log := s.log ++ [.installed i keys] }
  | .leave result, _, s' => s' = { s with
      holder := if s.holder = some i then none else s.holder
      log := s.log ++ [.answered i result] }

/-- A verification that is dropped where it waits, with its request, drops the guard. -/
def Cancels (i : I) (op : KeyOp K) (s s' : KeyState I K) : Prop :=
  match op with
  | .lock => s' = s
  | .awaitFetch => s' = { s with
      holder := none
      log := s.log ++ [.fetchDropped i s.now] }
  | _ => False

/-- The clock goes on. -/
def Passes (s s' : KeyState I K) : Prop := ∃ now, s.now ≤ now ∧ s' = { s with now := now }

/-- Any number of verifications that share a verifier. -/
def verifications (policy : TokenValidationPolicy) (token : I → Token K) :
    System (KeyState I K) I (Lookup K TokenIdentity) :=
  programs Passes (fun i p => p = verify policy (token i)) Performs Cancels

/-- A verifier that was just made with a key set. -/
def KeyState.start (keys : List (JwkVerificationKey K)) (now : Nat) : KeyState I K :=
  ⟨now, keys, none, none, []⟩

end Runs

/-! What a run keeps. -/

section Claims
variable (start : List (JwkVerificationKey K)) (header : I → Option Header)

/-- The keys that are cached after some events. -/
def cachedAfter (log : List (LookupEvent I K)) : List (JwkVerificationKey K) :=
  log.foldl LookupEvent.caches start

def fetches (log : List (LookupEvent I K)) : List (LookupEvent I K) :=
  log.filter LookupEvent.isFetch

/-- What a verification saw at its last look. -/
def Looked (i : I) (log : List (LookupEvent I K)) (keys : List (JwkVerificationKey K)) : Prop :=
  ∃ earlier later, log = earlier ++ .looked i :: later ∧ (∀ e ∈ later, e.by ≠ i) ∧
    keys = cachedAfter start earlier

/-- No fetch is under way. -/
def Closed (log : List (LookupEvent I K)) : Prop :=
  ∀ i now, (fetches log).getLast? ≠ some (.fetchStarted i now)

/-- When an event may follow others: a fetch starts while none is under way and the interval after
each is over, keys are cached that the last fetch brought, a verification waits only after it saw no
key for its token, fails only while none is cached, and uses one that matches. -/
def Allowed (finished : LookupEvent I K → Option Nat) (before : List (LookupEvent I K)) :
    LookupEvent I K → Prop
  | .fetchStarted _ now =>
    Closed before ∧ ∀ e ∈ fetches before, ∀ last ∈ finished e, last + refreshInterval ≤ now
  | .installed i keys => ∃ now answer,
    (fetches before).getLast? = some (.fetchEnded i now answer) ∧ usableKeys answer = .ok keys
  | .queued i => ∃ keys h, Looked start i before keys ∧ header i = some h ∧ selectKey keys h = none
  | .answered i (.error _) => ∃ h, header i = some h ∧ selectKey (cachedAfter start before) h = none
  | .answered i (.ok key) => ∃ h earlier, header i = some h ∧ earlier <+: before ∧
    Matches (cachedAfter start earlier) h key
  | _ => True

def SoundLookups (finished : LookupEvent I K → Option Nat) (log : List (LookupEvent I K)) : Prop :=
  ∀ before e, before ++ [e] <+: log → Allowed start header finished before e

end Claims

/-! The protocol of a verification. -/

inductive Stage (K : Type) where
  | idle
  | saw (keys : List (JwkVerificationKey K))
  | queued
  | locked (last : Option Nat)
  | rechecked (last : Option Nat) (keys : List (JwkVerificationKey K))
  | timed (last now : Nat) (keys : List (JwkVerificationKey K))
  | fetching
  | fetched (answer : JwksAnswer K)
  | clocked (answer : JwksAnswer K) (now : Nat)
  | stamped (answer : JwksAnswer K)
  | installed (keys : List (JwkVerificationKey K))
  | gone

/-- The results that a verification may leave with. -/
def Stage.Answers (header : Header) : Stage K → Except AuthError K → Prop
  | .saw keys, .ok key => selectKey keys header = some key
  | .rechecked _ keys, .ok key => selectKey keys header = some key
  | .installed keys, .ok key => selectKey keys header = some key
  | .timed _ _ keys, .error _ => selectKey keys header = none
  | .installed keys, .error _ => selectKey keys header = none
  | .stamped _, .error _ => True
  | _, _ => False

structure Phase (K : Type) where
  header : Header
  stage : Stage K

def allows (phase : Phase K) : KeyOp K → Prop
  | .look => phase.stage = .idle ∨ ∃ last, phase.stage = .locked last
  | .queue => ∃ keys, phase.stage = .saw keys ∧ selectKey keys phase.header = none
  | .lock => phase.stage = .queued
  | .now => (∃ last keys, phase.stage = .rechecked (some last) keys) ∨
      ∃ answer, phase.stage = .fetched answer
  | .startFetch => ∃ keys, selectKey keys phase.header = none ∧
      (phase.stage = .rechecked none keys ∨
        ∃ last now, phase.stage = .timed last now keys ∧ refreshInterval ≤ now - last)
  | .awaitFetch => phase.stage = .fetching
  | .stamp now => ∃ answer, phase.stage = .clocked answer now
  | .install keys => ∃ answer, phase.stage = .stamped answer ∧ usableKeys answer = .ok keys
  | .leave result => phase.stage.Answers phase.header result

def nextStage (stage : Stage K) : (op : KeyOp K) → op.Answer → Stage K
  | .look, keys =>
    match stage with
    | .locked last => .rechecked last keys
    | _ => .saw keys
  | .queue, _ => .queued
  | .lock, last => .locked last
  | .now, now =>
    match stage with
    | .rechecked (some last) keys => .timed last now keys
    | .fetched answer => .clocked answer now
    | stage => stage
  | .startFetch, _ => .fetching
  | .awaitFetch, answer => .fetched answer
  | .stamp _, _ =>
    match stage with
    | .clocked answer _ => .stamped answer
    | stage => stage
  | .install keys, _ => .installed keys
  | .leave _, _ => .gone

def nextPhase (phase : Phase K) (op : KeyOp K) (r : op.Answer) : Phase K :=
  ⟨phase.header, nextStage phase.stage op r⟩

abbrev Keeps {α : Type} (x : Lookup K α) (phase : Phase K) (ends : Phase K → α → Prop) : Prop :=
  Follows nextPhase allows ends x phase

section Protocol
variable {header : Header}

theorem keeps_demand {phase : Phase K} (op : KeyOp K) (h : allows phase op) :
    Keeps (demand op) phase fun later r => later = nextPhase phase op r :=
  ⟨h, fun _ => rfl, fun _ => trivial⟩

theorem keeps_leave {stage : Stage K} {result : Except AuthError K}
    (h : stage.Answers header result) :
    Keeps (leave result) ⟨header, stage⟩ fun _ _ => True := by
  refine (keeps_demand (.leave result) (show allows ⟨header, stage⟩ _ from h)).bind fun _ _ _ => ?_
  cases result <;> trivial

theorem keeps_refreshedLately {last : Option Nat} {keys : List (JwkVerificationKey K)} :
    Keeps (refreshedLately last) ⟨header, .rechecked last keys⟩ fun later lately =>
      if lately then ∃ last now, later = ⟨header, .timed last now keys⟩
      else later = ⟨header, .rechecked none keys⟩ ∨
        ∃ last now, later = ⟨header, .timed last now keys⟩ ∧ refreshInterval ≤ now - last := by
  cases last with
  | none => exact .inl rfl
  | some last =>
    refine (keeps_demand .now (.inl ⟨last, keys, rfl⟩)).bind ?_
    rintro _ (now : Nat) rfl
    change ite _ _ _
    by_cases hlately : now - last < refreshInterval
    · rw [if_pos (decide_eq_true hlately)]
      exact ⟨last, now, rfl⟩
    · rw [if_neg (by simpa using hlately)]
      exact .inr ⟨last, now, rfl, Nat.le_of_not_lt hlately⟩

theorem keeps_refreshKeys {stage : Stage K} (hallows : allows ⟨header, stage⟩ .startFetch) :
    Keeps (refreshKeys header) ⟨header, stage⟩ fun _ _ => True := by
  refine (keeps_demand .startFetch hallows).bind ?_
  rintro _ - rfl
  refine (keeps_demand .awaitFetch (show allows ⟨header, .fetching⟩ _ from rfl)).bind ?_
  rintro _ answer rfl
  refine (keeps_demand .now (.inr ⟨answer, rfl⟩)).bind ?_
  rintro _ now rfl
  refine (keeps_demand (.stamp now) ⟨answer, rfl⟩).bind ?_
  rintro _ - rfl
  cases husable : usableKeys answer with
  | error error => exact keeps_leave trivial
  | ok keys =>
    refine (keeps_demand (.install keys) ⟨answer, rfl, husable⟩).bind ?_
    rintro _ - rfl
    cases hselect : selectKey keys header with
    | none => exact keeps_leave hselect
    | some key => exact keeps_leave hselect

theorem keeps_lockRefresh {keys : List (JwkVerificationKey K)}
    (h : selectKey keys header = none) :
    Keeps lockRefresh ⟨header, .saw keys⟩ fun later last => later = ⟨header, .locked last⟩ := by
  refine (keeps_demand .queue (show allows ⟨header, .saw keys⟩ _ from ⟨keys, rfl, h⟩)).bind ?_
  rintro _ - rfl
  exact keeps_demand .lock rfl

theorem keeps_keyFor : Keeps (keyFor header : Lookup K K) ⟨header, .idle⟩ fun _ _ => True := by
  refine (keeps_demand .look (.inl rfl)).bind ?_
  rintro _ keys rfl
  cases hfirst : selectKey keys header with
  | some key => exact keeps_leave hfirst
  | none =>
    refine (keeps_lockRefresh hfirst).bind ?_
    rintro _ last rfl
    refine (keeps_demand .look (.inr ⟨last, rfl⟩)).bind ?_
    rintro _ keys rfl
    cases hselect : selectKey keys header with
    | some key => exact keeps_leave hselect
    | none =>
      refine keeps_refreshedLately.bind fun later lately h => ?_
      cases lately with
      | true =>
        obtain ⟨last, now, rfl⟩ := h
        exact keeps_leave hselect
      | false =>
        simp only [Bool.false_eq_true, if_false] at h ⊢
        rcases h with rfl | ⟨last, now, rfl, hdue⟩
        · exact keeps_refreshKeys ⟨keys, hselect, .inl rfl⟩
        · exact keeps_refreshKeys ⟨keys, hselect, .inr ⟨last, now, rfl, hdue⟩⟩

theorem keeps_verify (policy : TokenValidationPolicy) {token : Token K}
    (htoken : token.header = some header) :
    Keeps (verify policy token) ⟨header, .idle⟩ fun _ _ => True := by
  rw [verify, htoken]
  simp only
  split
  · trivial
  · refine keeps_keyFor.bind fun later key _ => ?_
    split
    · trivial
    · cases policy.identityFromClaims _ <;> trivial

end Protocol

/-! What holds of every run. -/

section Invariant
variable {start : List (JwkVerificationKey K)} {header : I → Option Header}
  {finished : LookupEvent I K → Option Nat} {log : List (LookupEvent I K)} {e : LookupEvent I K}

theorem cachedAfter_snoc : cachedAfter start (log ++ [e]) = e.caches (cachedAfter start log) := by
  rw [cachedAfter, List.foldl_append]
  rfl

theorem fetches_append (log events : List (LookupEvent I K)) :
    fetches (log ++ events) = fetches log ++ fetches events := List.filter_append _ _

theorem fetches_snoc_of_fetch (h : e.isFetch = true) : fetches (log ++ [e]) = fetches log ++ [e] := by
  rw [fetches_append, fetches, fetches, List.filter_singleton, h]
  rfl

theorem fetches_snoc_of_not (h : e.isFetch = false) : fetches (log ++ [e]) = fetches log := by
  rw [fetches_append, fetches, fetches, List.filter_singleton, h]
  simp

theorem SoundLookups.snoc (h : SoundLookups start header finished log)
    (he : Allowed start header finished log e) : SoundLookups start header finished (log ++ [e]) := by
  intro before event hprefix
  rcases List.prefix_concat_iff.mp hprefix with heq | hprefix
  · obtain ⟨rfl, hevent⟩ := List.append_inj' heq rfl
    rwa [List.singleton_inj.mp hevent]
  · exact h before event hprefix

/-- Where no fetch was dropped, every fetch that was over had returned. -/
theorem SoundLookups.of_returned (h : SoundLookups start header LookupEvent.returned log)
    (hdropped : ∀ i now, LookupEvent.fetchDropped i now ∉ log) :
    SoundLookups start header LookupEvent.finished log := by
  intro before event hprefix
  have hallowed := h before event hprefix
  have hsub : before <+: log := (List.prefix_append before [event]).trans hprefix
  cases event with
  | fetchStarted i now =>
    refine ⟨hallowed.1, fun e he last hlast => hallowed.2 e he last ?_⟩
    cases e with
    | fetchDropped j _ => exact absurd (hsub.subset (List.mem_filter.mp he).1) (hdropped j _)
    | fetchEnded j _ _ => exact hlast
    | fetchStarted j _ => exact hlast
    | looked j => exact hlast
    | queued j => exact hlast
    | installed j _ => exact hlast
    | answered j _ => exact hlast
  | looked i => trivial
  | queued i => exact hallowed
  | fetchEnded i now answer => trivial
  | fetchDropped i now => trivial
  | installed i keys => exact hallowed
  | answered i result => cases result <;> exact hallowed

end Invariant

section Outline
variable (start : List (JwkVerificationKey K)) (header : I → Option Header)

/-- Each fetch that returned did so before the last refresh. -/
def Recorded (s : KeyState I K) : Prop :=
  ∀ e ∈ fetches s.log, ∀ now ∈ e.returned, ∃ last, s.lastRefresh = some last ∧ now ≤ last

structure Invariant (s : KeyState I K) : Prop where
  sound : SoundLookups start header LookupEvent.returned s.log
  cached : s.cached = cachedAfter start s.log
  past : ∀ e ∈ fetches s.log, ∀ now ∈ e.returned, now ≤ s.now
  free : s.holder = none → Closed s.log ∧ Recorded s

/-- The last fetch is this verification's and returned this answer. -/
def Brought (i : I) (answer : JwksAnswer K) (s : KeyState I K) : Prop :=
  ∃ now, (fetches s.log).getLast? = some (.fetchEnded i now answer)

def StageKnows (i : I) (h : Header) (s : KeyState I K) : Stage K → Prop
  | .idle => s.holder ≠ some i
  | .saw keys => s.holder ≠ some i ∧ Looked start i s.log keys
  | .queued => s.holder ≠ some i
  | .locked last => s.holder = some i ∧ Closed s.log ∧ Recorded s ∧ s.lastRefresh = last
  | .rechecked last keys =>
    s.holder = some i ∧ Closed s.log ∧ Recorded s ∧ s.lastRefresh = last ∧ s.cached = keys
  | .timed last now keys =>
    s.holder = some i ∧ Closed s.log ∧ Recorded s ∧ s.lastRefresh = some last ∧ s.cached = keys ∧
      now ≤ s.now
  | .fetching => s.holder = some i ∧ Recorded s ∧ selectKey s.cached h = none
  | .fetched answer => s.holder = some i ∧ Brought i answer s ∧ selectKey s.cached h = none
  | .clocked answer now => s.holder = some i ∧ Brought i answer s ∧ selectKey s.cached h = none ∧
      ∀ e ∈ fetches s.log, ∀ returned ∈ e.returned, returned ≤ now
  | .stamped answer =>
    s.holder = some i ∧ Brought i answer s ∧ selectKey s.cached h = none ∧ Recorded s
  | .installed keys => s.holder = some i ∧ Closed s.log ∧ Recorded s ∧ s.cached = keys
  | .gone => s.holder ≠ some i

def KnowsPhase (i : I) (phase : Phase K) (s : KeyState I K) : Prop :=
  (header i = some phase.header ∨ phase.stage = .gone) ∧ StageKnows start i phase.header s phase.stage

def Waits (i : I) (s : KeyState I K) : Prop := s.holder ≠ some i

/-- What others do beside a verification: behind its lock they only look and queue. -/
structure Others (i : I) (s s' : KeyState I K) : Prop where
  events : ∃ events, s'.log = s.log ++ events ∧ ∀ e ∈ events, e.by ≠ i
  clock : s.now ≤ s'.now
  free : s.holder ≠ some i → s'.holder ≠ some i
  held : s.holder = some i → s'.holder = some i ∧ s'.cached = s.cached ∧
    s'.lastRefresh = s.lastRefresh ∧ fetches s'.log = fetches s.log

variable {start : List (JwkVerificationKey K)} {header : I → Option Header} {s s' : KeyState I K}
  {i : I} {e : LookupEvent I K}

theorem Looked.append {log events : List (LookupEvent I K)} {keys : List (JwkVerificationKey K)}
    (h : Looked start i log keys) (hevents : ∀ e ∈ events, e.by ≠ i) :
    Looked start i (log ++ events) keys := by
  obtain ⟨earlier, later, rfl, hlater, hkeys⟩ := h
  refine ⟨earlier, later ++ events, by rw [List.append_assoc, List.cons_append], ?_, hkeys⟩
  intro e he
  rcases List.mem_append.mp he with he | he
  · exact hlater e he
  · exact hevents e he

/-- Facts about the fetches and the last refresh do not depend on the rest. -/
theorem Recorded.congr (h : Recorded s) (hlast : s'.lastRefresh = s.lastRefresh)
    (hfetches : fetches s'.log = fetches s.log) : Recorded s' := by
  unfold Recorded
  rwa [hlast, hfetches]

theorem Closed.congr {log log' : List (LookupEvent I K)} (h : Closed log)
    (hfetches : fetches log' = fetches log) : Closed log' := by
  unfold Closed
  rwa [hfetches]

theorem Brought.congr {answer : JwksAnswer K} (h : Brought i answer s)
    (hfetches : fetches s'.log = fetches s.log) : Brought i answer s' := by
  unfold Brought
  rwa [hfetches]

theorem StageKnows.stable (hothers : Others i s s') {h : Header} {stage : Stage K}
    (hknows : StageKnows start i h s stage) : StageKnows start i h s' stage := by
  cases stage with
  | idle => exact hothers.free hknows
  | queued => exact hothers.free hknows
  | gone => exact hothers.free hknows
  | saw keys =>
    obtain ⟨events, hlog, hevents⟩ := hothers.events
    refine ⟨hothers.free hknows.1, ?_⟩
    rw [hlog]
    exact hknows.2.append hevents
  | locked last =>
    obtain ⟨hheld, hclosed, hrecorded, hlast⟩ := hknows
    obtain ⟨hheld', -, hlast', hfetches⟩ := hothers.held hheld
    exact ⟨hheld', hclosed.congr hfetches, hrecorded.congr hlast' hfetches, hlast'.trans hlast⟩
  | rechecked last keys =>
    obtain ⟨hheld, hclosed, hrecorded, hlast, hkeys⟩ := hknows
    obtain ⟨hheld', hcached, hlast', hfetches⟩ := hothers.held hheld
    exact ⟨hheld', hclosed.congr hfetches, hrecorded.congr hlast' hfetches, hlast'.trans hlast,
      hcached.trans hkeys⟩
  | timed last now keys =>
    obtain ⟨hheld, hclosed, hrecorded, hlast, hkeys, hnow⟩ := hknows
    obtain ⟨hheld', hcached, hlast', hfetches⟩ := hothers.held hheld
    exact ⟨hheld', hclosed.congr hfetches, hrecorded.congr hlast' hfetches, hlast'.trans hlast,
      hcached.trans hkeys, hnow.trans hothers.clock⟩
  | fetching =>
    obtain ⟨hheld, hrecorded, hselect⟩ := hknows
    obtain ⟨hheld', hcached, hlast', hfetches⟩ := hothers.held hheld
    exact ⟨hheld', hrecorded.congr hlast' hfetches, by rwa [hcached]⟩
  | fetched answer =>
    obtain ⟨hheld, hbrought, hselect⟩ := hknows
    obtain ⟨hheld', hcached, -, hfetches⟩ := hothers.held hheld
    exact ⟨hheld', hbrought.congr hfetches, by rwa [hcached]⟩
  | clocked answer now =>
    obtain ⟨hheld, hbrought, hselect, hpast⟩ := hknows
    obtain ⟨hheld', hcached, -, hfetches⟩ := hothers.held hheld
    exact ⟨hheld', hbrought.congr hfetches, by rwa [hcached], by rwa [hfetches]⟩
  | stamped answer =>
    obtain ⟨hheld, hbrought, hselect, hrecorded⟩ := hknows
    obtain ⟨hheld', hcached, hlast', hfetches⟩ := hothers.held hheld
    exact ⟨hheld', hbrought.congr hfetches, by rwa [hcached], hrecorded.congr hlast' hfetches⟩
  | installed keys =>
    obtain ⟨hheld, hclosed, hrecorded, hkeys⟩ := hknows
    obtain ⟨hheld', hcached, hlast', hfetches⟩ := hothers.held hheld
    exact ⟨hheld', hclosed.congr hfetches, hrecorded.congr hlast' hfetches, hcached.trans hkeys⟩

/-- A step that adds one event. -/
theorem Invariant.extend (hinv : Invariant start header s) (hlog : s'.log = s.log ++ [e])
    (hnow : s'.now = s.now) (hcached : s'.cached = e.caches s.cached)
    (hallowed : Allowed start header LookupEvent.returned s.log e)
    (hpast : ∀ now ∈ e.returned, now ≤ s.now)
    (hfree : s'.holder = none → Closed s'.log ∧ Recorded s') : Invariant start header s' where
  sound := hlog ▸ hinv.sound.snoc hallowed
  cached := by rw [hcached, hlog, cachedAfter_snoc, hinv.cached]
  past event hevent now hreturned := by
    rw [hlog, fetches_append, List.mem_append] at hevent
    rw [hnow]
    rcases hevent with hevent | hevent
    · exact hinv.past event hevent now hreturned
    · obtain rfl := List.mem_singleton.mp (List.mem_filter.mp hevent).1
      exact hpast now hreturned
  free := hfree

theorem Others.of_holder {j : I} (hj : j ≠ i) (hheld : s.holder = some i)
    (hevents : ∃ events, s'.log = s.log ++ events ∧ ∀ e ∈ events, e.by = i) (hnow : s'.now = s.now)
    (hholder : ∀ k, s'.holder = some k → k = i) : Others j s s' where
  events := by
    obtain ⟨events, hlog, hby⟩ := hevents
    exact ⟨events, hlog, fun e he heq => hj (heq.symm.trans (hby e he))⟩
  clock := hnow.ge
  free _ h := hj (hholder j h)
  held h := absurd (Option.some.inj (h.symm.trans hheld)) hj

/-- An event beside the lock. -/
theorem Others.of_quiet {j : I} (hj : j ≠ i) (hby : e.by = i) (hquiet : e.isFetch = false) :
    Others j s { s with log := s.log ++ [e] } where
  events := ⟨[e], rfl, fun e' he' heq => hj (by
    rw [← heq, List.mem_singleton.mp he', hby])⟩
  clock := le_rfl
  free h := h
  held h := ⟨h, rfl, rfl, fetches_snoc_of_not hquiet⟩

end Outline

section Steps
variable [DecidableEq I] {start : List (JwkVerificationKey K)} {header : I → Option Header}
  {s s' : KeyState I K} {i : I} {phase : Phase K}

omit [DecidableEq I] in
/-- What is known of a verification that did not leave. -/
theorem KnowsPhase.running {h : Header} {stage : Stage K}
    (hknows : KnowsPhase start header i ⟨h, stage⟩ s) (hstage : stage ≠ .gone) :
    header i = some h ∧ StageKnows start i h s stage :=
  ⟨hknows.1.resolve_right hstage, hknows.2⟩

/-- Only the holder of the lock changes what is behind it. -/
theorem look_keeps {keys : List (JwkVerificationKey K)} (hallows : allows phase .look)
    (hperforms : Performs i s .look keys s') (hinv : Invariant start header s)
    (hknows : KnowsPhase start header i phase s) :
    Invariant start header s' ∧ KnowsPhase start header i (nextPhase phase .look keys) s' ∧
      ∀ j, j ≠ i → Others j s s' := by
  obtain ⟨rfl, rfl⟩ := hperforms
  obtain ⟨h, stage⟩ := phase
  have hfetches : fetches (s.log ++ [.looked i]) = fetches s.log := fetches_snoc_of_not rfl
  have hinv' : Invariant start header { s with log := s.log ++ [.looked i] } :=
    hinv.extend rfl rfl rfl trivial (fun _ h => nomatch h) fun hfree =>
      ⟨(hinv.free hfree).1.congr hfetches, (hinv.free hfree).2.congr rfl hfetches⟩
  refine ⟨hinv', ?_, fun j hj => .of_quiet hj rfl rfl⟩
  rcases hallows with hstage | ⟨last, hstage⟩
  · obtain rfl : stage = .idle := hstage
    obtain ⟨hheader, hfree⟩ := hknows.running nofun
    refine ⟨.inl hheader, hfree, s.log, [], rfl, ?_, hinv.cached⟩
    exact fun e he => nomatch he
  · obtain rfl : stage = .locked last := hstage
    obtain ⟨hheader, hheld, hclosed, hrecorded, hlast⟩ := hknows.running nofun
    exact ⟨.inl hheader, hheld, hclosed.congr hfetches,
      hrecorded.congr rfl hfetches, hlast, rfl⟩

theorem queue_keeps (hallows : allows phase .queue) (hperforms : Performs i s .queue () s')
    (hinv : Invariant start header s) (hknows : KnowsPhase start header i phase s) :
    Invariant start header s' ∧ KnowsPhase start header i (nextPhase phase .queue ()) s' ∧
      ∀ j, j ≠ i → Others j s s' := by
  obtain rfl := hperforms
  obtain ⟨h, stage⟩ := phase
  obtain ⟨keys, hstage, hselect⟩ := hallows
  obtain rfl : stage = .saw keys := hstage
  obtain ⟨hheader, hfree, hlooked⟩ := hknows.running nofun
  have hfetches : fetches (s.log ++ [.queued i]) = fetches s.log := fetches_snoc_of_not rfl
  refine ⟨?_, ⟨.inl hheader, hfree⟩, fun j hj => .of_quiet hj rfl rfl⟩
  exact hinv.extend rfl rfl rfl ⟨keys, h, hlooked, hheader, hselect⟩ (fun _ h => nomatch h)
    fun hnone => ⟨(hinv.free hnone).1.congr hfetches, (hinv.free hnone).2.congr rfl hfetches⟩

theorem lock_keeps {last : Option Nat} (hallows : allows phase .lock)
    (hperforms : Performs i s .lock last s') (hinv : Invariant start header s)
    (hknows : KnowsPhase start header i phase s) :
    Invariant start header s' ∧ KnowsPhase start header i (nextPhase phase .lock last) s' ∧
      ∀ j, j ≠ i → Others j s s' := by
  obtain ⟨hnone, rfl, rfl⟩ := hperforms
  obtain ⟨h, stage⟩ := phase
  obtain rfl : stage = .queued := hallows
  obtain ⟨hheader, -⟩ := hknows.running nofun
  obtain ⟨hclosed, hrecorded⟩ := hinv.free hnone
  refine ⟨⟨hinv.sound, hinv.cached, hinv.past, fun h => nomatch h⟩,
    ⟨.inl hheader, rfl, hclosed, hrecorded, rfl⟩, fun j hj => ⟨⟨[], ?_, ?_⟩, le_rfl, ?_, ?_⟩⟩
  · exact (List.append_nil _).symm
  · exact fun e he => nomatch he
  · exact fun _ h => hj (Option.some.inj h).symm
  · exact fun h => nomatch hnone.symm.trans h

theorem now_keeps {now : Nat} (hallows : allows phase .now) (hperforms : Performs i s .now now s')
    (hinv : Invariant start header s) (hknows : KnowsPhase start header i phase s) :
    Invariant start header s' ∧ KnowsPhase start header i (nextPhase phase .now now) s' ∧
      ∀ j, j ≠ i → Others j s s' := by
  obtain ⟨rfl, rfl⟩ := hperforms
  obtain ⟨h, stage⟩ := phase
  refine ⟨hinv, ?_, fun j _ => ⟨⟨[], (List.append_nil _).symm, fun e he => nomatch he⟩, le_rfl, id,
    fun h => ⟨h, rfl, rfl, rfl⟩⟩⟩
  rcases hallows with ⟨last, keys, hstage⟩ | ⟨answer, hstage⟩
  · obtain rfl : stage = .rechecked (some last) keys := hstage
    obtain ⟨hheader, hheld, hclosed, hrecorded, hlast, hkeys⟩ := hknows.running nofun
    exact ⟨.inl hheader, hheld, hclosed, hrecorded, hlast, hkeys,
      le_rfl⟩
  · obtain rfl : stage = .fetched answer := hstage
    obtain ⟨hheader, hheld, hbrought, hselect⟩ := hknows.running nofun
    exact ⟨.inl hheader, hheld, hbrought, hselect, hinv.past⟩

/-- A fetch starts once the interval since the last refresh is over. -/
theorem startFetch_keeps (hallows : allows phase .startFetch)
    (hperforms : Performs i s .startFetch () s') (hinv : Invariant start header s)
    (hknows : KnowsPhase start header i phase s) :
    Invariant start header s' ∧ KnowsPhase start header i (nextPhase phase .startFetch ()) s' ∧
      ∀ j, j ≠ i → Others j s s' := by
  obtain rfl := hperforms
  obtain ⟨h, stage⟩ := phase
  obtain ⟨keys, hselect, hstage⟩ := hallows
  obtain ⟨hheader, hheld, hclosed, hrecorded, hkeys, hdue⟩ : header i = some h ∧ s.holder = some i ∧
      Closed s.log ∧ Recorded s ∧ s.cached = keys ∧
      ∀ last, s.lastRefresh = some last → last + refreshInterval ≤ s.now := by
    rcases hstage with hstage | ⟨last, now, hstage, hover⟩
    · obtain rfl : stage = .rechecked none keys := hstage
      obtain ⟨hheader, hheld, hclosed, hrecorded, hlast, hkeys⟩ := hknows.running nofun
      refine ⟨hheader, hheld, hclosed, hrecorded, hkeys, ?_⟩
      exact fun last h => nomatch hlast.symm.trans h
    · obtain rfl : stage = .timed last now keys := hstage
      obtain ⟨hheader, hheld, hclosed, hrecorded, hlast, hkeys, hnow⟩ := hknows.running nofun
      refine ⟨hheader, hheld, hclosed, hrecorded, hkeys, ?_⟩
      intro last' h
      obtain rfl := Option.some.inj (hlast.symm.trans h)
      have hpos : 0 < refreshInterval := by decide
      omega
  have hfetches : fetches (s.log ++ [.fetchStarted i s.now]) =
      fetches s.log ++ [.fetchStarted i s.now] := fetches_snoc_of_fetch rfl
  refine ⟨?_, ⟨.inl hheader, hheld, ?_, by rwa [hkeys]⟩, fun j hj => ?_⟩
  · refine hinv.extend rfl rfl rfl ⟨hclosed, fun e he returned hreturned => ?_⟩ (fun _ h => nomatch h)
      fun hnone => nomatch hheld.symm.trans hnone
    obtain ⟨last, hlast, hle⟩ := hrecorded e he returned hreturned
    exact (Nat.add_le_add_right hle _).trans (hdue last hlast)
  · intro e he now hreturned
    change e ∈ fetches (s.log ++ [.fetchStarted i s.now]) at he
    rw [hfetches, List.mem_append] at he
    rcases he with he | he
    · exact hrecorded e he now hreturned
    · obtain rfl := List.mem_singleton.mp he
      exact nomatch hreturned
  · exact .of_holder hj hheld ⟨[_], rfl, fun e he => by rw [List.mem_singleton.mp he]; rfl⟩ rfl
      fun k hk => Option.some.inj (hk.symm.trans hheld)

omit [DecidableEq I] in
/-- A fetch that is over, behind the lock of its verification. -/
theorem over_keeps {e : LookupEvent I K} (hinv : Invariant start header s) {h : Header}
    (hknows : StageKnows start i h s .fetching) (hby : e.by = i) (hfetch : e.isFetch = true)
    (hallowed : Allowed start header LookupEvent.returned s.log e)
    (hcaches : e.caches s.cached = s.cached) (hpast : ∀ now ∈ e.returned, now ≤ s.now)
    {holder : Option I} (hholder : ∀ k, holder = some k → k = i)
    (hs' : s' = { s with holder := holder, log := s.log ++ [e] })
    (hfree : holder = none → ∀ now, e.returned ≠ some now)
    (hclosed : ∀ i now, e ≠ .fetchStarted i now) :
    Invariant start header s' ∧ ∀ j, j ≠ i → Others j s s' := by
  obtain ⟨hheld, hrecorded, -⟩ := hknows
  subst hs'
  have hfetches : fetches (s.log ++ [e]) = fetches s.log ++ [e] := fetches_snoc_of_fetch hfetch
  refine ⟨hinv.extend rfl rfl hcaches.symm hallowed hpast fun hnone => ⟨?_, ?_⟩, fun j hj => ?_⟩
  · intro k now hlast
    rw [hfetches, List.getLast?_concat] at hlast
    exact hclosed k now (Option.some.inj hlast)
  · intro event hevent now hreturned
    change event ∈ fetches (s.log ++ [e]) at hevent
    rw [hfetches, List.mem_append] at hevent
    rcases hevent with hevent | hevent
    · exact hrecorded event hevent now hreturned
    · obtain rfl := List.mem_singleton.mp hevent
      exact absurd hreturned (hfree hnone now)
  · exact .of_holder hj hheld ⟨[e], rfl, fun e' he' => by rw [List.mem_singleton.mp he', hby]⟩ rfl
      hholder

theorem awaitFetch_keeps {answer : JwksAnswer K} (hallows : allows phase .awaitFetch)
    (hperforms : Performs i s .awaitFetch answer s') (hinv : Invariant start header s)
    (hknows : KnowsPhase start header i phase s) :
    Invariant start header s' ∧ KnowsPhase start header i (nextPhase phase .awaitFetch answer) s' ∧
      ∀ j, j ≠ i → Others j s s' := by
  obtain ⟨h, stage⟩ := phase
  obtain rfl : stage = .fetching := hallows
  obtain ⟨hheader, hstage⟩ := hknows.running nofun
  have hheld : s.holder = some i := hstage.1
  obtain ⟨hinv', hothers⟩ := over_keeps hinv hstage (e := .fetchEnded i s.now answer) rfl rfl
    trivial rfl (fun now hnow => (Option.some.inj hnow).ge)
    (fun k hk => Option.some.inj (hk.symm.trans hheld))
    hperforms (fun hnone => nomatch hheld.symm.trans hnone) (fun _ _ h => nomatch h)
  obtain rfl := hperforms
  refine ⟨hinv', ⟨.inl hheader, hheld, ⟨s.now, ?_⟩, hstage.2.2⟩, hothers⟩
  exact (congrArg List.getLast? (fetches_snoc_of_fetch rfl)).trans List.getLast?_concat

theorem stamp_keeps {now : Nat} (hallows : allows phase (.stamp now))
    (hperforms : Performs i s (.stamp now) () s') (hinv : Invariant start header s)
    (hknows : KnowsPhase start header i phase s) :
    Invariant start header s' ∧ KnowsPhase start header i (nextPhase phase (.stamp now) ()) s' ∧
      ∀ j, j ≠ i → Others j s s' := by
  obtain rfl := hperforms
  obtain ⟨h, stage⟩ := phase
  obtain ⟨answer, hstage⟩ := hallows
  obtain rfl : stage = .clocked answer now := hstage
  obtain ⟨hheader, hheld, hbrought, hselect, hpast⟩ := hknows.running nofun
  refine ⟨⟨hinv.sound, hinv.cached, hinv.past, fun hnone => nomatch hheld.symm.trans hnone⟩,
    ⟨.inl hheader, hheld, hbrought, hselect, ?_⟩, fun j hj => ?_⟩
  · exact fun e he returned hreturned => ⟨now, rfl, hpast e he returned hreturned⟩
  · exact .of_holder hj hheld ⟨[], (List.append_nil _).symm, fun e he => nomatch he⟩ rfl
      fun k hk => Option.some.inj (hk.symm.trans hheld)

theorem install_keeps {keys : List (JwkVerificationKey K)} (hallows : allows phase (.install keys))
    (hperforms : Performs i s (.install keys) () s') (hinv : Invariant start header s)
    (hknows : KnowsPhase start header i phase s) :
    Invariant start header s' ∧ KnowsPhase start header i (nextPhase phase (.install keys) ()) s' ∧
      ∀ j, j ≠ i → Others j s s' := by
  obtain rfl := hperforms
  obtain ⟨h, stage⟩ := phase
  obtain ⟨answer, hstage, husable⟩ := hallows
  obtain rfl : stage = .stamped answer := hstage
  obtain ⟨hheader, hheld, ⟨now, hlast⟩, -, hrecorded⟩ := hknows.running nofun
  have hfetches : fetches (s.log ++ [.installed i keys]) = fetches s.log := fetches_snoc_of_not rfl
  have hclosed : Closed s.log := fun k t h => nomatch hlast.symm.trans h
  refine ⟨hinv.extend rfl rfl rfl ⟨now, answer, hlast, husable⟩ (fun _ h => nomatch h)
      (fun hnone => nomatch hheld.symm.trans hnone),
    ⟨.inl hheader, hheld, hclosed.congr hfetches,
      hrecorded.congr rfl hfetches, rfl⟩, fun j hj => ?_⟩
  exact .of_holder hj hheld ⟨[_], rfl, fun e he => by rw [List.mem_singleton.mp he]; rfl⟩ rfl
    fun k hk => Option.some.inj (hk.symm.trans hheld)

omit [DecidableEq I] in
/-- A verification leaves with a key that it was shown, or without one while none is cached. -/
theorem Stage.Answers.allowed {h : Header} {stage : Stage K} {result : Except AuthError K}
    (hanswers : stage.Answers h result) (hinv : Invariant start header s)
    (hheader : header i = some h) (hknows : StageKnows start i h s stage) :
    Allowed start header LookupEvent.returned s.log (.answered i result) := by
  have hcached {keys : List (JwkVerificationKey K)} (hkeys : s.cached = keys) :
      cachedAfter start s.log = keys := hinv.cached.symm.trans hkeys
  cases result with
  | ok key =>
    cases stage with
    | saw keys =>
      obtain ⟨-, earlier, later, hlog, -, rfl⟩ := hknows
      exact ⟨h, earlier, hheader, ⟨_, hlog.symm⟩, selectKey_matches hanswers⟩
    | rechecked last keys =>
      obtain ⟨-, -, -, -, hkeys⟩ := hknows
      exact ⟨h, s.log, hheader, List.prefix_rfl, hcached hkeys ▸ selectKey_matches hanswers⟩
    | installed keys =>
      obtain ⟨-, -, -, hkeys⟩ := hknows
      exact ⟨h, s.log, hheader, List.prefix_rfl, hcached hkeys ▸ selectKey_matches hanswers⟩
    | _ => exact hanswers.elim
  | error error =>
    cases stage with
    | timed last now keys =>
      obtain ⟨-, -, -, -, hkeys, -⟩ := hknows
      exact ⟨h, hheader, (hcached hkeys).symm ▸ hanswers⟩
    | installed keys =>
      obtain ⟨-, -, -, hkeys⟩ := hknows
      exact ⟨h, hheader, (hcached hkeys).symm ▸ hanswers⟩
    | stamped answer =>
      obtain ⟨-, -, hselect, -⟩ := hknows
      exact ⟨h, hheader, hinv.cached ▸ hselect⟩
    | _ => exact hanswers.elim

omit [DecidableEq I] in
/-- Where a verification may leave and holds the lock, no fetch is under way. -/
theorem Stage.Answers.settled {h : Header} {stage : Stage K} {result : Except AuthError K}
    (hanswers : stage.Answers h result) (hknows : StageKnows start i h s stage) :
    s.holder ≠ some i ∨ s.holder = some i ∧ Closed s.log ∧ Recorded s := by
  cases stage with
  | saw keys => exact .inl hknows.1
  | rechecked last keys => exact .inr ⟨hknows.1, hknows.2.1, hknows.2.2.1⟩
  | timed last now keys => exact .inr ⟨hknows.1, hknows.2.1, hknows.2.2.1⟩
  | installed keys => exact .inr ⟨hknows.1, hknows.2.1, hknows.2.2.1⟩
  | stamped answer =>
    obtain ⟨hheld, ⟨now, hlast⟩, -, hrecorded⟩ := hknows
    exact .inr ⟨hheld, (fun k t h => nomatch hlast.symm.trans h), hrecorded⟩
  | _ => cases result <;> exact hanswers.elim

theorem leave_keeps {result : Except AuthError K} (hallows : allows phase (.leave result))
    (hperforms : Performs i s (.leave result) () s') (hinv : Invariant start header s)
    (hknows : KnowsPhase start header i phase s) :
    Invariant start header s' ∧ KnowsPhase start header i (nextPhase phase (.leave result) ()) s' ∧
      ∀ j, j ≠ i → Others j s s' := by
  obtain rfl := hperforms
  have hheader : header i = some phase.header := hknows.1.resolve_right fun hgone => by
    rw [allows, hgone] at hallows
    cases result <;> exact hallows.elim
  have hallowed := Stage.Answers.allowed hallows hinv hheader hknows.2
  have hfetches : fetches (s.log ++ [.answered i result]) = fetches s.log := fetches_snoc_of_not rfl
  rcases Stage.Answers.settled hallows hknows.2 with hfree | ⟨hheld, hclosed, hrecorded⟩
  · rw [if_neg hfree]
    refine ⟨?_, ⟨.inr rfl, hfree⟩, fun j hj => .of_quiet hj rfl rfl⟩
    exact hinv.extend rfl rfl rfl hallowed (fun _ h => nomatch h) fun hnone =>
      ⟨(hinv.free hnone).1.congr hfetches, (hinv.free hnone).2.congr rfl hfetches⟩
  · rw [if_pos hheld]
    refine ⟨?_, ⟨.inr rfl, fun h => nomatch h⟩, fun j hj => ?_⟩
    · exact hinv.extend rfl rfl rfl hallowed (fun _ h => nomatch h) fun _ =>
        ⟨hclosed.congr hfetches, hrecorded.congr rfl hfetches⟩
    · exact .of_holder hj hheld ⟨[_], rfl, fun e he => by rw [List.mem_singleton.mp he]; rfl⟩ rfl
        fun k h => nomatch h

/-- One operation of a verification. -/
theorem performs_keeps {op : KeyOp K} {r : op.Answer} (hallows : allows phase op)
    (hperforms : Performs i s op r s') (hinv : Invariant start header s)
    (hknows : KnowsPhase start header i phase s) :
    Invariant start header s' ∧ KnowsPhase start header i (nextPhase phase op r) s' ∧
      ∀ j, j ≠ i → Others j s s' := by
  cases op with
  | look => exact look_keeps hallows hperforms hinv hknows
  | queue => exact queue_keeps hallows hperforms hinv hknows
  | lock => exact lock_keeps hallows hperforms hinv hknows
  | now => exact now_keeps hallows hperforms hinv hknows
  | startFetch => exact startFetch_keeps hallows hperforms hinv hknows
  | awaitFetch => exact awaitFetch_keeps hallows hperforms hinv hknows
  | stamp now => exact stamp_keeps hallows hperforms hinv hknows
  | install keys => exact install_keeps hallows hperforms hinv hknows
  | leave result => exact leave_keeps hallows hperforms hinv hknows

omit [DecidableEq I] in
/-- A verification that is dropped where it waits. -/
theorem cancels_keeps {op : KeyOp K} (hallows : allows phase op) (hcancels : Cancels i op s s')
    (hinv : Invariant start header s) (hknows : KnowsPhase start header i phase s) :
    Invariant start header s' ∧ ∀ j, j ≠ i → Others j s s' := by
  cases op with
  | lock =>
    obtain rfl : s' = s := hcancels
    exact ⟨hinv, fun j _ => ⟨⟨[], (List.append_nil _).symm, fun e he => nomatch he⟩, le_rfl, id,
      fun h => ⟨h, rfl, rfl, rfl⟩⟩⟩
  | awaitFetch =>
    obtain ⟨h, stage⟩ := phase
    obtain rfl : stage = .fetching := hallows
    exact over_keeps hinv hknows.2 (e := .fetchDropped i s.now) rfl rfl trivial rfl
      (fun _ h => nomatch h) (fun k (h : none = some k) => nomatch h) hcancels
      (fun _ _ h => nomatch h) (fun _ _ h => nomatch h)
  | look => exact hcancels.elim
  | queue => exact hcancels.elim
  | now => exact hcancels.elim
  | startFetch => exact hcancels.elim
  | stamp now => exact hcancels.elim
  | install keys => exact hcancels.elim
  | leave result => exact hcancels.elim

theorem verifications_outline (policy : TokenValidationPolicy) (token : I → Token K)
    (start : List (JwkVerificationKey K)) :
    ProtocolOutline Passes (fun (i : I) p => p = verify policy (token i)) Performs Cancels nextPhase
      allows Others (Invariant start fun i => (token i).header) Waits
      (KnowsPhase start fun i => (token i).header) where
  refl _ _ := ⟨⟨[], (List.append_nil _).symm, fun e he => nomatch he⟩, le_rfl, id,
    fun h => ⟨h, rfl, rfl, rfl⟩⟩
  stable _ _ _ _ hothers _ _ hknows := ⟨hknows.1, hknows.2.stable hothers⟩
  waiting _ _ _ hothers hwaits := hothers.free hwaits
  env s s' hpasses hinv := by
    obtain ⟨now, hnow, rfl⟩ := hpasses
    exact ⟨⟨hinv.sound, hinv.cached, fun e he t ht => (hinv.past e he t ht).trans hnow, hinv.free⟩,
      fun i => ⟨⟨[], (List.append_nil _).symm, fun e he => nomatch he⟩, hnow, id,
        fun h => ⟨h, rfl, rfl, rfl⟩⟩⟩
  starts i p s hp _ hwaits := by
    subst hp
    cases hheader : (token i).header with
    | none =>
      refine ⟨⟨⟨none, .rs256⟩, .gone⟩, ?_, .inr rfl, hwaits⟩
      rw [verify, hheader]
      trivial
    | some h => exact ⟨⟨h, .idle⟩, keeps_verify policy hheader, .inl hheader, hwaits⟩
  performs _ _ _ _ _ _ := performs_keeps
  cancels _ _ _ _ _ := cancels_keeps

end Steps

section Main
variable {I : Type} [DecidableEq I]

/-- Where no fetch is dropped, the lookup of keys is throttled and loses no key. -/
theorem lookups_sound (policy : TokenValidationPolicy) (token : I → Token K)
    (keys : List (JwkVerificationKey K)) (now : Nat)
    {w : World (KeyState I K) I (Lookup K TokenIdentity)}
    (h : (verifications policy token).Reachable (KeyState.start keys now) w)
    (hdropped : ∀ i t, LookupEvent.fetchDropped i t ∉ w.shared.log) :
    SoundLookups keys (fun i => (token i).header) LookupEvent.finished w.shared.log ∧
      w.shared.cached = cachedAfter keys w.shared.log := by
  have hstart : Invariant keys (fun i => (token i).header) (KeyState.start (I := I) keys now) :=
    ⟨fun _ _ hprefix => absurd (List.prefix_nil.mp hprefix) (by simp), rfl, (fun e he => nomatch he),
      fun _ => ⟨(fun _ _ h => nomatch h), fun e he => nomatch he⟩⟩
  have hinv := (verifications_outline policy token keys).reachable hstart
    (fun i h => nomatch h) h
  exact ⟨hinv.sound.of_returned hdropped, hinv.cached⟩

/-- A token of a key that is not cached at first. -/
def newToken : Token Unit := ⟨some ⟨some "new", .rs256⟩, fun _ _ => none⟩

def anyPolicy : TokenValidationPolicy := ⟨"issuer", "openid", [], "email"⟩

theorem newKey_sound : ∃ w : World (KeyState Unit Unit) Unit (Lookup Unit TokenIdentity),
    w.shared.cached = [⟨some "new", some .rs256, ()⟩] ∧
      SoundLookups [] (fun _ => newToken.header) LookupEvent.finished w.shared.log := by
  have h0 : (verifications (I := Unit) anyPolicy fun _ => newToken).Reachable
      (KeyState.start [] 0) ⟨_, _⟩ := .start
  have h1 := h0.begins (i := ()) rfl rfl
  have h2 := programs_performs h1 () .look _ rfl ⟨rfl, rfl⟩
  have h3 := programs_performs h2 () .queue () rfl rfl
  have h4 := programs_performs h3 () .lock _ rfl ⟨rfl, rfl, rfl⟩
  have h5 := programs_performs h4 () .look _ rfl ⟨rfl, rfl⟩
  have h6 := programs_performs h5 () .startFetch () rfl rfl
  have h7 := programs_performs h6 () .awaitFetch
    (.published [⟨none, none, some .rs256, some "new", some ()⟩]) rfl rfl
  have h8 := programs_performs h7 () .now _ rfl ⟨rfl, rfl⟩
  have h9 := programs_performs h8 () (.stamp 0) () rfl rfl
  have h10 := programs_performs h9 () (.install [⟨some "new", some .rs256, ()⟩]) () rfl rfl
  have h11 := programs_performs h10 () (.leave (.ok ())) () rfl rfl
  exact ⟨_, rfl, (lookups_sound anyPolicy _ _ _ h11 (by simp [KeyState.start])).1⟩

/-- A request that goes away during its fetch leaves no time behind, and the next one fetches at
once. -/
theorem droppedFetch_not_throttled :
    ∃ w : World (KeyState Bool Unit) Bool (Lookup Unit TokenIdentity),
      (verifications anyPolicy fun _ => newToken).Reachable (KeyState.start [] 0) w ∧
        ¬ SoundLookups [] (fun _ => newToken.header) LookupEvent.finished w.shared.log := by
  have h0 : (verifications (I := Bool) anyPolicy fun _ => newToken).Reachable
      (KeyState.start [] 0) ⟨_, _⟩ := .start
  have h1 := h0.begins (i := false) rfl rfl
  have h2 := programs_performs h1 false .look _ rfl ⟨rfl, rfl⟩
  have h3 := programs_performs h2 false .queue () rfl rfl
  have h4 := programs_performs h3 false .lock _ rfl ⟨rfl, rfl, rfl⟩
  have h5 := programs_performs h4 false .look _ rfl ⟨rfl, rfl⟩
  have h6 := programs_performs h5 false .startFetch () rfl rfl
  have h7 := programs_cancels h6 false .awaitFetch rfl rfl
  have h8 := h7.begins (i := true) rfl rfl
  have h9 := programs_performs h8 true .look _ rfl ⟨rfl, rfl⟩
  have h10 := programs_performs h9 true .queue () rfl rfl
  have h11 := programs_performs h10 true .lock _ rfl ⟨rfl, rfl, rfl⟩
  have h12 := programs_performs h11 true .look _ rfl ⟨rfl, rfl⟩
  have h13 := programs_performs h12 true .startFetch () rfl rfl
  refine ⟨_, h13, fun hsound => ?_⟩
  have hlate := (hsound _ _ List.prefix_rfl).2 (.fetchDropped false 0)
    (by simp [fetches, KeyState.start, LookupEvent.isFetch]) 0 rfl
  exact absurd hlate (by decide)

end Main

end JwtTokenVerifier

end Server

end AuruPm
