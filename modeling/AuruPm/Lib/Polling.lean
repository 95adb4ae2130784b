import Mathlib.Data.List.Basic
import Mathlib.Tactic.Common

/-!
# Polling at a growing interval until a deadline

A loop goes round by round. A round may send a poll, tell something, go on or stop. What is asked
of its runs: two polls are never closer than the interval of that moment, which grows with every
answer that asks for it, no poll is sent when time is over, and the run stops, once, with a word.
-/

namespace Polling

set_option autoImplicit false

universe u v

/-- When a poll was sent, and whether its answer asks to slow down. -/
structure Poll where
  sent : Nat
  slower : Bool
  deriving DecidableEq

inductive Output (E : Type u) where
  | poll (p : Poll)
  | report (event : E)
  deriving DecidableEq

variable {E : Type u} {S : Type v}

def Output.poll? : Output E → Option Poll
  | .poll p => some p
  | .report _ => none

def polls (outputs : List (Output E)) : List Poll := outputs.filterMap Output.poll?

def slowdowns (ps : List Poll) : Nat := ps.countP Poll.slower

@[simp] theorem polls_nil : polls ([] : List (Output E)) = [] := rfl

@[simp] theorem polls_append (outputs outputs' : List (Output E)) :
    polls (outputs ++ outputs') = polls outputs ++ polls outputs' :=
  List.filterMap_append

@[simp] theorem polls_cons_poll (p : Poll) (outputs : List (Output E)) :
    polls (.poll p :: outputs) = p :: polls outputs := rfl

@[simp] theorem polls_cons_report (event : E) (outputs : List (Output E)) :
    polls (.report event :: outputs) = polls outputs := rfl

/-! What is asked. -/

/-- Each poll keeps the interval, and what it has grown by then, from the one before. -/
def Paced (interval step : Nat) (ps : List Poll) : Prop :=
  ∀ n p q, ps[n]? = some p → ps[n + 1]? = some q →
    p.sent + (interval + step * slowdowns (ps.take (n + 1))) ≤ q.sent

/-- The last word closes the run, and no other one does. -/
def EndsOnce (closes : E → Prop) (outputs : List (Output E)) : Prop :=
  ∃ before last, outputs = before ++ [.report last] ∧ closes last ∧
    ∀ event, .report event ∈ before → ¬ closes event

/-- A run so far; without a state it has stopped. -/
structure Config (E : Type u) (S : Type v) where
  outputs : List (Output E)
  state : Option S

structure AsAsked (closes : E → Prop) (interval step lifetime : Nat) (runs : Nat → Config E S) :
    Prop where
  paced : ∀ n, Paced interval step (polls (runs n).outputs)
  inTime : ∀ n, ∀ p ∈ polls (runs n).outputs, p.sent < lifetime
  ends : ∃ n, (runs n).state = none ∧ EndsOnce closes (runs n).outputs

theorem AsAsked.mono {closes : E → Prop} {interval interval' step lifetime : Nat}
    {runs : Nat → Config E S} (h : AsAsked closes interval' step lifetime runs)
    (hle : interval ≤ interval') : AsAsked closes interval step lifetime runs where
  paced n := by
    intro m p q hp hq
    have hgap := h.paced n m p q hp hq
    omega
  inTime := h.inTime
  ends := h.ends

theorem paced_nil (interval step : Nat) : Paced interval step [] := by
  intro n p q hp
  cases hp

theorem Paced.snoc {interval step : Nat} {ps : List Poll} {q : Poll} (h : Paced interval step ps)
    (hq : ∀ p, ps.getLast? = some p → p.sent + (interval + step * slowdowns ps) ≤ q.sent) :
    Paced interval step (ps ++ [q]) := by
  intro n p r hp hr
  rcases Nat.lt_trichotomy (n + 1) ps.length with hlt | heq | hgt
  · rw [List.getElem?_append_left (by omega)] at hp
    rw [List.getElem?_append_left hlt] at hr
    rw [List.take_append_of_le_length (by omega)]
    exact h n p r hp hr
  · rw [List.getElem?_append_left (by omega)] at hp
    rw [heq, List.getElem?_concat_length] at hr
    cases hr
    rw [heq, List.take_left]
    apply hq
    rw [List.getLast?_eq_getElem?, ← heq, Nat.add_sub_cancel]
    exact hp
  · have hnone : (ps ++ [q])[n + 1]? = none := by
      rw [List.getElem?_eq_none_iff, List.length_append, List.length_singleton]
      omega
    rw [hnone] at hr
    cases hr

/-- What a loop knows between two rounds: the last poll lies behind, and `due` is the wait that is
asked for now. -/
structure Kept (interval step : Nat) (ps : List Poll) (now due : Nat) : Prop where
  paced : Paced interval step ps
  behind : ∀ p, ps.getLast? = some p → p.sent ≤ now
  due : due = interval + step * slowdowns ps

theorem Kept.nil (interval step now : Nat) : Kept interval step [] now interval where
  paced := paced_nil interval step
  behind p hp := by cases hp
  due := rfl

theorem Kept.poll {interval step now now' due : Nat} {ps : List Poll} {q : Poll}
    (h : Kept interval step ps now due) (hwaited : now + due ≤ q.sent) (hnow : q.sent ≤ now') :
    Kept interval step (ps ++ [q]) now' (due + if q.slower then step else 0) where
  paced := by
    apply h.paced.snoc
    intro p hp
    have hbehind := h.behind p hp
    have hdue := h.due
    omega
  behind p hp := by
    rw [List.getLast?_concat] at hp
    cases hp
    exact hnow
  due := by
    have hdue := h.due
    cases hslower : q.slower with
    | false => simp [slowdowns, hslower, hdue]
    | true =>
      simp only [slowdowns, List.countP_append, List.countP_cons, List.countP_nil, hslower, hdue,
        if_true, Nat.zero_add, Nat.mul_add, Nat.mul_one]
      omega

/-! Runs. -/

section Run
variable (round : S → List (Output E) × Option S)

def advance (c : Config E S) : Config E S :=
  match c.state with
  | none => c
  | some s => ⟨c.outputs ++ (round s).1, (round s).2⟩

def run (start : Config E S) : Nat → Config E S
  | 0 => start
  | n + 1 => advance round (run start n)

variable {round} {start : Config E S}

theorem run_succ_of_running {n : Nat} {s : S} (h : (run round start n).state = some s) :
    run round start (n + 1) =
      ⟨(run round start n).outputs ++ (round s).1, (round s).2⟩ := by
  rw [run, advance, h]

theorem run_succ_of_stopped {n : Nat} (h : (run round start n).state = none) :
    run round start (n + 1) = run round start n := by
  rw [run, advance, h]

theorem run_of_stopped (h : start.state = none) (n : Nat) : run round start n = start := by
  induction n with
  | zero => rfl
  | succ n ih => rw [run_succ_of_stopped (by rw [ih, h]), ih]

/-- What holds at the start and is kept by a round that goes on holds as long as the run goes on. -/
theorem run_invariant {I : List (Output E) → S → Prop}
    (hstart : ∀ s, start.state = some s → I start.outputs s)
    (hround : ∀ outputs s s', I outputs s → (round s).2 = some s' → I (outputs ++ (round s).1) s')
    (n : Nat) (s : S) (h : (run round start n).state = some s) :
    I (run round start n).outputs s := by
  induction n generalizing s with
  | zero => exact hstart s h
  | succ n ih =>
    cases hs : (run round start n).state with
    | none =>
      rw [run_succ_of_stopped hs, hs] at h
      cases h
    | some s₀ =>
      rw [run_succ_of_running hs] at h ⊢
      exact hround _ s₀ s (ih s₀ hs) h

theorem asAsked_of_stopped {closes : E → Prop} {interval step lifetime : Nat}
    (h : start.state = none) (hpolls : polls start.outputs = [])
    (hends : EndsOnce closes start.outputs) :
    AsAsked closes interval step lifetime (run round start) where
  paced n := by
    rw [run_of_stopped h, hpolls]
    exact paced_nil interval step
  inTime n p hp := by
    rw [run_of_stopped h, hpolls] at hp
    cases hp
  ends := ⟨0, h, hends⟩

/-- What every round keeps of the outputs holds of all outputs. -/
theorem run_outputs {I : List (Output E) → S → Prop} {P : List (Output E) → Prop}
    (hinv : ∀ n s, (run round start n).state = some s → I (run round start n).outputs s)
    (hstart : P start.outputs)
    (hround : ∀ outputs s, I outputs s → P outputs → P (outputs ++ (round s).1))
    (n : Nat) : P (run round start n).outputs := by
  induction n with
  | zero => exact hstart
  | succ n ih =>
    cases hs : (run round start n).state with
    | none => rwa [run_succ_of_stopped hs]
    | some s =>
      rw [run_succ_of_running hs]
      exact hround _ s (hinv n s hs) ih

/-- A run whose rounds use something up stops. -/
theorem run_stops {I : List (Output E) → S → Prop} {f : S → Nat}
    (hinv : ∀ n s, (run round start n).state = some s → I (run round start n).outputs s)
    (hround : ∀ outputs s s', I outputs s → (round s).2 = some s' → f s' < f s) :
    ∃ n, (run round start n).state = none := by
  have hless : ∀ bound n s, (run round start n).state = some s → f s < bound →
      ∃ m, (run round start m).state = none := by
    intro bound
    induction bound with
    | zero => exact fun n s _ hlt => absurd hlt (Nat.not_lt_zero _)
    | succ bound ih =>
      intro n s hs hlt
      have hsucc := run_succ_of_running hs
      cases hs' : (round s).2 with
      | none => exact ⟨n + 1, by rw [hsucc]; exact hs'⟩
      | some s' =>
        have hdrop := hround _ s s' (hinv n s hs) hs'
        exact ih (n + 1) s' (by rw [hsucc]; exact hs') (by omega)
  cases hs : start.state with
  | none => exact ⟨0, hs⟩
  | some s => exact hless (f s + 1) 0 s hs (Nat.lt_succ_self _)

/-- A run that has stopped did so in one round. -/
theorem exists_last_round {n : Nat} (hstart : start.state ≠ none)
    (h : (run round start n).state = none) :
    ∃ m s, (run round start m).state = some s ∧ (round s).2 = none ∧
      (run round start n).outputs = (run round start m).outputs ++ (round s).1 := by
  induction n with
  | zero => exact absurd h hstart
  | succ n ih =>
    cases hs : (run round start n).state with
    | none =>
      rw [run_succ_of_stopped hs]
      exact ih hs
    | some s =>
      rw [run_succ_of_running hs] at h ⊢
      exact ⟨n, s, hs, h, rfl⟩

end Run

end Polling
