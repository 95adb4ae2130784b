import AuruPm.Lib.SortedAssoc
import Mathlib.Data.List.Induction

/-!
# Limiting requests

`RateLimiter` of the server: a window of a minute for each client, in a table that idle clients are
taken out of when it is large. A limiter that keeps them answers alike.
-/

namespace AuruPm

set_option autoImplicit false

open SortedAssoc

namespace Server

/-- Times are in nanoseconds. -/
structure RequestWindow where
  started : Nat
  requests : Nat
  deriving DecidableEq

def minute : Nat := 60 * 1000000000

structure RateLimiter (Client : Type) [LinearOrder Client] where
  requestsPerMinute : Nat
  clients : List (Client × RequestWindow)
  sorted : Sorted clients

/-- The part of `allow_at` for the window of the client. -/
def RequestWindow.allowIn (limit now : Nat) (window : Option RequestWindow) : Bool × RequestWindow :=
  let window := window.getD ⟨now, 0⟩
  let window := if minute ≤ now - window.started then ⟨now, 0⟩ else window
  if limit ≤ window.requests then (false, window)
  else (true, { window with requests := window.requests + 1 })

namespace RateLimiter
variable {Client : Type} [LinearOrder Client]

def new (requestsPerMinute : Nat) : RateLimiter Client :=
  ⟨max requestsPerMinute 1, [], List.Pairwise.nil⟩

/-- Takes out the clients whose window is over. -/
def retain (l : RateLimiter Client) (now : Nat) : RateLimiter Client :=
  if 4096 ≤ l.clients.length then
    ⟨l.requestsPerMinute, l.clients.filter fun e => now - e.2.started < minute,
      l.sorted.sublist List.filter_sublist⟩
  else l

/-- The limiter that takes out nobody. -/
def allowKeeping (l : RateLimiter Client) (client : Client) (now : Nat) :
    Bool × RateLimiter Client :=
  let (answer, window) := RequestWindow.allowIn l.requestsPerMinute now (get? l.clients client)
  (answer, ⟨l.requestsPerMinute, insert client window l.clients, sorted_insert l.sorted _ _⟩)

def allowAt (l : RateLimiter Client) (client : Client) (now : Nat) : Bool × RateLimiter Client :=
  (l.retain now).allowKeeping client now

abbrev Allow (Client : Type) [LinearOrder Client] :=
  RateLimiter Client → Client → Nat → Bool × RateLimiter Client

/-- The limiter after the calls. -/
def after (allow : Allow Client) (l : RateLimiter Client) (calls : List (Client × Nat)) :
    RateLimiter Client :=
  calls.foldl (fun l call => (allow l call.1 call.2).2) l

/-- The calls with their answers. -/
def answered (allow : Allow Client) (l : RateLimiter Client) :
    List (Client × Nat) → List ((Client × Nat) × Bool)
  | [] => []
  | call :: calls =>
    (call, (allow l call.1 call.2).1) :: answered allow (allow l call.1 call.2).2 calls

/-- How many requests of a client are allowed within a minute from a time. -/
def allowedWithin (client : Client) (start : Nat) (calls : List ((Client × Nat) × Bool)) : Nat :=
  calls.countP fun e =>
    e.1.1 = client ∧ start ≤ e.1.2 ∧ e.1.2 < start + minute ∧ e.2 = true

/-! Windows. -/

theorem allowIn_over {limit now : Nat} {w : RequestWindow} (h : minute ≤ now - w.started) :
    RequestWindow.allowIn limit now (some w) = RequestWindow.allowIn limit now none := by
  have hnew : ¬ minute ≤ now - now := by
    rw [Nat.sub_self]
    decide
  simp only [RequestWindow.allowIn, Option.getD_some, Option.getD_none, if_pos h, if_neg hnew]

/-- What a request makes of a window that is there. -/
theorem allowIn_cases (limit now : Nat) (w : RequestWindow) :
    w.started + minute ≤ now ∨
      now < w.started + minute ∧
        (limit ≤ w.requests ∧ RequestWindow.allowIn limit now (some w) = (false, w) ∨
          w.requests < limit ∧
            RequestWindow.allowIn limit now (some w) = (true, ⟨w.started, w.requests + 1⟩)) := by
  have hpos : 0 < minute := by decide
  by_cases hover : minute ≤ now - w.started
  · exact Or.inl (by omega)
  · refine Or.inr ⟨by omega, ?_⟩
    simp only [RequestWindow.allowIn, Option.getD_some, if_neg hover]
    split
    · exact Or.inl ⟨‹_›, rfl⟩
    · exact Or.inr ⟨by omega, rfl⟩

theorem allowIn_none {limit : Nat} (h : 1 ≤ limit) (now : Nat) :
    RequestWindow.allowIn limit now none = (true, ⟨now, 1⟩) := by
  have hnew : ¬ minute ≤ now - now := by
    rw [Nat.sub_self]
    decide
  have hroom : ¬ limit ≤ 0 := by omega
  simp only [RequestWindow.allowIn, Option.getD_none, if_neg hnew, if_neg hroom]

variable {l l' : RateLimiter Client} {client : Client} {now : Nat}

theorem keeping_window (l : RateLimiter Client) (client : Client) (now : Nat) (k : Client) :
    get? (l.allowKeeping client now).2.clients k =
      if k = client then
        some (RequestWindow.allowIn l.requestsPerMinute now (get? l.clients client)).2
      else get? l.clients k :=
  get?_insert ..

theorem retain_window (l : RateLimiter Client) (now : Nat) (k : Client) :
    get? (l.retain now).clients k = get? l.clients k ∨
      get? (l.retain now).clients k = none ∧
        ∃ w, get? l.clients k = some w ∧ minute ≤ now - w.started := by
  unfold retain
  split
  · rw [get?_filter l.sorted]
    cases hw : get? l.clients k with
    | none => exact Or.inl rfl
    | some w =>
      rw [Option.filter_some]
      split
      · exact Or.inl rfl
      · rename_i hover
        exact Or.inr ⟨rfl, w, rfl, by simpa using hover⟩
  · exact Or.inl rfl

theorem retain_limit (l : RateLimiter Client) (now : Nat) :
    (l.retain now).requestsPerMinute = l.requestsPerMinute := by
  unfold retain
  split <;> rfl

/-! Nobody is missed. -/

/-- The windows of one limiter that another one has not are over. -/
structure Misses (now : Nat) (l l' : RateLimiter Client) : Prop where
  limit : l.requestsPerMinute = l'.requestsPerMinute
  windows : ∀ k, get? l.clients k = get? l'.clients k ∨
    get? l.clients k = none ∧ ∃ w, get? l'.clients k = some w ∧ w.started + minute ≤ now

theorem Misses.retain {t : Nat} (h : Misses t l l') (hnow : t ≤ now) :
    Misses now (l.retain now) l' := by
  refine ⟨(retain_limit l now).trans h.limit, fun k => ?_⟩
  rcases h.windows k with hsame | ⟨hnone, w, hw, hover⟩
  · rcases retain_window l now k with hkept | ⟨hgone, w, hw, hover⟩
    · exact Or.inl (hkept.trans hsame)
    · have hpos : 0 < minute := by decide
      exact Or.inr ⟨hgone, w, hsame ▸ hw, by omega⟩
  · right
    refine ⟨?_, w, hw, hover.trans hnow⟩
    rcases retain_window l now k with hkept | ⟨hgone, -⟩
    · exact hkept.trans hnone
    · exact hgone

theorem Misses.step {t : Nat} (h : Misses t l l') (hnow : t ≤ now) (client : Client) :
    (l.allowAt client now).1 = (l'.allowKeeping client now).1 ∧
      Misses now (l.allowAt client now).2 (l'.allowKeeping client now).2 := by
  have hretained := h.retain hnow
  have hallow : RequestWindow.allowIn (l.retain now).requestsPerMinute now
      (get? (l.retain now).clients client) =
        RequestWindow.allowIn l'.requestsPerMinute now (get? l'.clients client) := by
    rw [hretained.limit]
    rcases hretained.windows client with hsame | ⟨hnone, w, hw, hover⟩
    · rw [hsame]
    · rw [hnone, hw, allowIn_over (by omega)]
  have hanswer := congrArg Prod.fst hallow
  refine ⟨hanswer, hretained.limit, fun k => ?_⟩
  rw [allowAt, keeping_window, keeping_window, hallow]
  split
  · exact Or.inl rfl
  · exact hretained.windows k

theorem Misses.run {t : Nat} (h : Misses t l l') {calls : List (Client × Nat)}
    (hafter : ∀ call ∈ calls, t ≤ call.2) (hsorted : calls.Pairwise fun a b => a.2 ≤ b.2) :
    answered allowAt l calls = answered allowKeeping l' calls ∧
      ∃ t', Misses t' (after allowAt l calls) (after allowKeeping l' calls) := by
  induction calls generalizing l l' t with
  | nil => exact ⟨rfl, t, h⟩
  | cons call calls ih =>
    obtain ⟨hnext, hsorted⟩ := List.pairwise_cons.mp hsorted
    obtain ⟨hanswer, hstep⟩ := h.step (hafter call List.mem_cons_self) call.1
    obtain ⟨hanswers, hrest⟩ := ih hstep hnext hsorted
    exact ⟨by rw [answered, answered, hanswer, hanswers], hrest⟩

/-! Nobody is allowed too much. -/

theorem answered_append (allow : Allow Client) (l : RateLimiter Client)
    (calls calls' : List (Client × Nat)) :
    answered allow l (calls ++ calls') =
      answered allow l calls ++ answered allow (after allow l calls) calls' := by
  induction calls generalizing l with
  | nil => rfl
  | cons call calls ih =>
    rw [List.cons_append, answered, answered, ih]
    rfl

theorem answered_cons (allow : Allow Client) (l : RateLimiter Client) (caller : Client) (now : Nat)
    (calls : List (Client × Nat)) :
    answered allow l ((caller, now) :: calls) =
      ((caller, now), (allow l caller now).1) :: answered allow (allow l caller now).2 calls := rfl

theorem after_snoc (allow : Allow Client) (l : RateLimiter Client) (calls : List (Client × Nat))
    (caller : Client) (now : Nat) :
    after allow l (calls ++ [(caller, now)]) = (allow (after allow l calls) caller now).2 :=
  List.foldl_append

theorem answered_snoc (allow : Allow Client) (l : RateLimiter Client) (calls : List (Client × Nat))
    (caller : Client) (now : Nat) :
    answered allow l (calls ++ [(caller, now)]) = answered allow l calls ++
      [((caller, now), (allow (after allow l calls) caller now).1)] :=
  answered_append allow l calls _

theorem mem_answered {allow : Allow Client} {l : RateLimiter Client} {calls : List (Client × Nat)}
    {e : (Client × Nat) × Bool} (h : e ∈ answered allow l calls) : e.1 ∈ calls := by
  induction calls generalizing l with
  | nil => cases h
  | cons call calls ih =>
    rcases List.mem_cons.mp h with rfl | h
    · exact List.mem_cons_self
    · exact List.mem_cons_of_mem _ (ih h)

theorem allowedWithin_append (client : Client) (start : Nat)
    (calls calls' : List ((Client × Nat) × Bool)) :
    allowedWithin client start (calls ++ calls') =
      allowedWithin client start calls + allowedWithin client start calls' :=
  List.countP_append

theorem allowedWithin_cons (client : Client) (start : Nat) (caller : Client) (now : Nat)
    (answer : Bool) (calls : List ((Client × Nat) × Bool)) :
    allowedWithin client start (((caller, now), answer) :: calls) =
      allowedWithin client start calls +
        if caller = client ∧ start ≤ now ∧ now < start + minute ∧ answer = true then 1 else 0 := by
  simp only [allowedWithin, List.countP_cons, decide_eq_true_eq]

theorem allowedWithin_eq_zero {start : Nat} {calls : List ((Client × Nat) × Bool)}
    (h : ∀ e ∈ calls, e.1.1 = client → e.1.2 < start ∨ start + minute ≤ e.1.2) :
    allowedWithin client start calls = 0 := by
  apply List.countP_eq_zero.mpr
  intro e he hcounted
  obtain ⟨hclient, hstart, hend, -⟩ := of_decide_eq_true hcounted
  rcases h e he hclient with hlow | hhigh
  · omega
  · omega

/-- The calls after a window was looked at use up what is left of it. -/
theorem later_allowed {w : RequestWindow} (hw : get? l.clients client = some w)
    (hroom : w.requests ≤ l.requestsPerMinute) {calls : List (Client × Nat)}
    (hsorted : calls.Pairwise fun a b => a.2 ≤ b.2) :
    allowedWithin client w.started (answered allowKeeping l calls) + w.requests ≤
      l.requestsPerMinute := by
  induction calls generalizing l w with
  | nil => simpa [answered, allowedWithin] using hroom
  | cons call calls ih =>
    obtain ⟨caller, now⟩ := call
    obtain ⟨hnext, hsorted'⟩ := List.pairwise_cons.mp hsorted
    rw [answered_cons, allowedWithin_cons]
    by_cases hcaller : caller = client
    · subst hcaller
      have hstep := keeping_window l caller now caller
      rw [if_pos rfl, hw] at hstep
      have hanswer : (l.allowKeeping caller now).1 =
          (RequestWindow.allowIn l.requestsPerMinute now (some w)).1 := by
        rw [← hw]
        rfl
      rcases allowIn_cases l.requestsPerMinute now w with
        hover | ⟨-, ⟨-, hallow⟩ | ⟨hless, hallow⟩⟩
      · have hrest : allowedWithin caller w.started
            (answered allowKeeping (l.allowKeeping caller now).2 calls) = 0 := by
          apply allowedWithin_eq_zero
          intro e he _
          exact Or.inr (hover.trans (hnext e.1 (mem_answered he)))
        rw [hrest, if_neg (by omega)]
        omega
      · rw [hallow] at hanswer hstep
        rw [hanswer, if_neg (by simp)]
        exact ih hstep hroom hsorted'
      · rw [hallow] at hanswer hstep
        have hrest : allowedWithin caller w.started
            (answered allowKeeping (l.allowKeeping caller now).2 calls) + (w.requests + 1) ≤
              l.requestsPerMinute :=
          ih hstep hless hsorted'
        split
        · omega
        · omega
    · have hstep := keeping_window l caller now client
      rw [if_neg (Ne.symm hcaller), hw] at hstep
      rw [if_neg fun h => hcaller h.1]
      exact ih hstep hroom hsorted'

/-- A window has counted the requests of its client. -/
def Counted (limit : Nat) (client : Client) (calls : List ((Client × Nat) × Bool)) :
    Option RequestWindow → Prop
  | none => ∀ e ∈ calls, e.1.1 ≠ client
  | some w => w.requests ≤ limit ∧ (∀ e ∈ calls, e.1.1 = client → e.1.2 < w.started + minute) ∧
      allowedWithin client w.started calls ≤ w.requests

section Counting
variable {limit : Nat} {calls : List ((Client × Nat) × Bool)} {window : Option RequestWindow}

theorem Counted.other (h : Counted limit client calls window) {caller : Client}
    (hcaller : caller ≠ client) (now : Nat) (answer : Bool) :
    Counted limit client (calls ++ [((caller, now), answer)]) window := by
  cases window with
  | none =>
    intro e he
    rcases List.mem_append.mp he with he | he
    · exact h e he
    · rw [List.mem_singleton.mp he]
      exact hcaller
  | some w =>
    obtain ⟨hroom, htimes, hcount⟩ := h
    refine ⟨hroom, fun e he hclient => ?_, ?_⟩
    · rcases List.mem_append.mp he with he | he
      · exact htimes e he hclient
      · rw [List.mem_singleton.mp he] at hclient
        exact absurd hclient hcaller
    · rw [allowedWithin_append, allowedWithin_cons, if_neg fun h => hcaller h.1]
      exact hcount

/-- A window that begins. -/
theorem counted_new (hlimit : 1 ≤ limit)
    (hearlier : ∀ e ∈ calls, e.1.1 = client → e.1.2 < now) :
    Counted limit client (calls ++ [((client, now), true)]) (some ⟨now, 1⟩) := by
  have hpos : 0 < minute := by decide
  refine ⟨hlimit, fun e he hclient => ?_, ?_⟩
  · rcases List.mem_append.mp he with he | he
    · exact (hearlier e he hclient).trans (Nat.lt_add_of_pos_right hpos)
    · rw [List.mem_singleton.mp he]
      exact Nat.lt_add_of_pos_right hpos
  · rw [allowedWithin_append, allowedWithin_eq_zero fun e he hclient => Or.inl (hearlier e he hclient),
      allowedWithin_cons]
    split
    · exact Nat.le_refl _
    · exact Nat.zero_le _

/-- A request in a window that is not over. -/
theorem Counted.within {w : RequestWindow} (h : Counted limit client calls (some w))
    (hnow : now < w.started + minute) (answer : Bool) (hroom : w.requests + answer.toNat ≤ limit) :
    Counted limit client (calls ++ [((client, now), answer)])
      (some ⟨w.started, w.requests + answer.toNat⟩) := by
  obtain ⟨-, htimes, hcount⟩ := h
  refine ⟨hroom, fun e he hclient => ?_, ?_⟩
  · rcases List.mem_append.mp he with he | he
    · exact htimes e he hclient
    · rw [List.mem_singleton.mp he]
      exact hnow
  · rw [allowedWithin_append, allowedWithin_cons]
    cases answer with
    | false =>
      rw [if_neg (by simp)]
      exact hcount
    | true =>
      refine Nat.add_le_add hcount ?_
      split
      · exact Nat.le_refl _
      · exact Nat.zero_le _

theorem Counted.allowIn (h : Counted limit client calls window) (hlimit : 1 ≤ limit) (now : Nat) :
    Counted limit client (calls ++ [((client, now), (RequestWindow.allowIn limit now window).1)])
      (some (RequestWindow.allowIn limit now window).2) := by
  cases window with
  | none =>
    rw [allowIn_none hlimit]
    exact counted_new hlimit fun e he hclient => absurd hclient (h e he)
  | some w =>
    rcases allowIn_cases limit now w with hover | ⟨hnow, ⟨-, hallow⟩ | ⟨hless, hallow⟩⟩
    · rw [allowIn_over (by omega), allowIn_none hlimit]
      exact counted_new hlimit fun e he hclient => (h.2.1 e he hclient).trans_le hover
    · rw [hallow]
      exact h.within hnow false h.1
    · rw [hallow]
      exact h.within hnow true hless

end Counting

theorem counted_run (hl : 1 ≤ l.requestsPerMinute) (hempty : l.clients = []) (client : Client)
    (calls : List (Client × Nat)) :
    (after allowKeeping l calls).requestsPerMinute = l.requestsPerMinute ∧
      Counted l.requestsPerMinute client (answered allowKeeping l calls)
        (get? (after allowKeeping l calls).clients client) := by
  induction calls using List.reverseRecOn with
  | nil =>
    refine ⟨rfl, ?_⟩
    rw [after, List.foldl_nil, hempty]
    exact fun _ h => nomatch h
  | append_singleton calls call ih =>
    obtain ⟨caller, now⟩ := call
    obtain ⟨hlimit, hcounted⟩ := ih
    rw [after_snoc, answered_snoc, keeping_window]
    refine ⟨hlimit, ?_⟩
    split
    · rename_i hcaller
      subst hcaller
      have hanswer : ((after allowKeeping l calls).allowKeeping client now).1 =
          (RequestWindow.allowIn l.requestsPerMinute now
            (get? (after allowKeeping l calls).clients client)).1 := by
        rw [← hlimit]
        rfl
      rw [hanswer, hlimit]
      exact hcounted.allowIn hl now
    · rename_i hcaller
      exact hcounted.other (Ne.symm hcaller) now _

/-- A limiter that takes out idle clients answers like one that does not, and allows no client more
than its number of requests, or than one, in the minute of a window. -/
theorem rate_limiter (requestsPerMinute : Nat) {calls : List (Client × Nat)}
    (hsorted : calls.Pairwise fun a b => a.2 ≤ b.2) :
    answered allowAt (new requestsPerMinute) calls =
        answered allowKeeping (new requestsPerMinute) calls ∧
      ∀ before rest client w, calls = before ++ rest →
        get? (after allowAt (new requestsPerMinute) before).clients client = some w →
          allowedWithin client w.started (answered allowAt (new requestsPerMinute) calls) ≤
            max requestsPerMinute 1 := by
  have hstart : Misses 0 (new requestsPerMinute) (new requestsPerMinute : RateLimiter Client) :=
    ⟨rfl, fun _ => Or.inl rfl⟩
  have hsame := (hstart.run (fun _ _ => Nat.zero_le _) hsorted).1
  refine ⟨hsame, fun before rest client w hsplit hw => ?_⟩
  rw [hsame]
  subst hsplit
  obtain ⟨hbefore, hrest, -⟩ := List.pairwise_append.mp hsorted
  obtain ⟨-, t, hmisses⟩ := hstart.run (fun _ _ => Nat.zero_le _) hbefore
  have hkept : get? (after allowKeeping (new requestsPerMinute) before).clients client = some w := by
    rcases hmisses.windows client with hsame | ⟨hnone, -⟩
    · exact hsame.symm.trans hw
    · cases hnone.symm.trans hw
  obtain ⟨hlimit, hcounted⟩ := @counted_run _ _ (new requestsPerMinute) (Nat.le_max_right _ _) rfl
    client before
  rw [hkept] at hcounted
  obtain ⟨hroom, -, hcount⟩ := hcounted
  have hlater := later_allowed hkept (hlimit ▸ hroom) hrest
  rw [hlimit] at hlater
  rw [answered_append, allowedWithin_append]
  change _ ≤ (new requestsPerMinute : RateLimiter Client).requestsPerMinute
  omega

def twoClients : List (Nat × Nat) := [(1, 0), (2, 5), (1, 6)]

theorem twoClients_limited :
    answered allowAt (new 1) twoClients = [((1, 0), true), ((2, 5), true), ((1, 6), false)] ∧
      allowedWithin 1 0 (answered allowAt (new 1) twoClients) ≤ 1 := by
  obtain ⟨hsame, hwindows⟩ := @rate_limiter Nat _ 1 twoClients (by decide)
  refine ⟨hsame.trans (by decide), ?_⟩
  exact hwindows [(1, 0)] [(2, 5), (1, 6)] 1 ⟨0, 1⟩ rfl (by decide)

/-- A limiter for no requests allows one in each window. -/
theorem no_requests_allows_one :
    get? (after allowAt (new 0) [(7, 0)]).clients 7 = some ⟨0, 1⟩ ∧
      ¬ allowedWithin 7 0 (answered allowAt (new 0) [(7, 0)]) ≤ 0 := by
  decide

end RateLimiter

end Server

end AuruPm
