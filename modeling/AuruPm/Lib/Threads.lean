import Mathlib.Logic.Function.Basic
import Mathlib.Logic.Relation

/-!
# Threads over a shared state

Programs that call operations of a shared system one at a time, and threads of them whose
calls interleave. A program that follows a protocol can be replaced by its phase in the
protocol. A proof outline then gives an invariant of the shared state together with what each
running thread knows of it.
-/

namespace Threads

set_option autoImplicit false

/-! Programs. -/

section Programs
variable {Op : Type} {Answer : Op → Type} {Err E α β σ : Type}

/-- A program over operations that answer or fail, one call after the other. -/
inductive Prog (Op : Type) (Answer : Op → Type) (Err E α : Type) where
  | done (a : α)
  | fail (e : E)
  | call (op : Op) (next : Except Err (Answer op) → Prog Op Answer Err E α)

namespace Prog

def bind : Prog Op Answer Err E α → (α → Prog Op Answer Err E β) → Prog Op Answer Err E β
  | .done a, f => f a
  | .fail e, _ => .fail e
  | .call op next, f => .call op fun r => (next r).bind f

instance : Monad (Prog Op Answer Err E) where
  pure := .done
  bind := Prog.bind

/-- A call whose failure ends the program with an explanation. -/
def run (op : Op) (explain : Err → E) : Prog Op Answer Err E (Answer op) :=
  .call op fun
    | .ok r => .done r
    | .error e => .fail (explain e)

def ofExcept : Except E α → Prog Op Answer Err E α
  | .ok a => .done a
  | .error e => .fail e

@[simp] theorem pure_eq (a : α) : (pure a : Prog Op Answer Err E α) = .done a := rfl

@[simp] theorem done_bind (a : α) (f : α → Prog Op Answer Err E β) :
    (Prog.done a >>= f) = f a := rfl

@[simp] theorem fail_bind (e : E) (f : α → Prog Op Answer Err E β) :
    ((.fail e : Prog Op Answer Err E α) >>= f) = .fail e := rfl

@[simp] theorem call_bind (op : Op) (next : Except Err (Answer op) → Prog Op Answer Err E α)
    (f : α → Prog Op Answer Err E β) :
    (Prog.call op next >>= f) = .call op fun r => next r >>= f := rfl

end Prog

/-- The program keeps to a protocol from this phase on, whatever it is answered: which calls a
phase allows, where an answer takes it, and what the program may end with. -/
def Follows (next : σ → (op : Op) → Answer op → σ) (allows : σ → Op → Prop) (ends : σ → α → Prop) :
    Prog Op Answer Err E α → σ → Prop
  | .done a, s => ends s a
  | .fail _, _ => True
  | .call op k, s => allows s op ∧ (∀ r, Follows next allows ends (k (.ok r)) (next s op r)) ∧
      ∀ e, Follows next allows ends (k (.error e)) s

variable {next : σ → (op : Op) → Answer op → σ} {allows : σ → Op → Prop}

theorem Follows.bind {mid : σ → α → Prop} {ends : σ → β → Prop} {x : Prog Op Answer Err E α}
    {f : α → Prog Op Answer Err E β} {s : σ} (h : Follows next allows mid x s)
    (hf : ∀ t a, mid t a → Follows next allows ends (f a) t) :
    Follows next allows ends (x >>= f) s := by
  induction x generalizing s with
  | done a => exact hf s a h
  | fail e => trivial
  | call op k ih =>
    obtain ⟨hop, hok, herr⟩ := h
    exact ⟨hop, fun r => ih _ (hok r), fun e => ih _ (herr e)⟩

theorem Follows.weaken {ends ends' : σ → α → Prop} {x : Prog Op Answer Err E α} {s : σ}
    (h : Follows next allows ends x s) (hsub : ∀ t a, ends t a → ends' t a) :
    Follows next allows ends' x s := by
  induction x generalizing s with
  | done a => exact hsub s a h
  | fail e => trivial
  | call op k ih =>
    obtain ⟨hop, hok, herr⟩ := h
    exact ⟨hop, fun r => ih _ (hok r), fun e => ih _ (herr e)⟩

theorem Follows.run_bind {ends : σ → β → Prop} {op : Op} {explain : Err → E}
    {f : Answer op → Prog Op Answer Err E β} {s : σ} (hop : allows s op)
    (hf : ∀ r, Follows next allows ends (f r) (next s op r)) :
    Follows next allows ends (Prog.run op explain >>= f) s :=
  ⟨hop, hf, fun _ => trivial⟩

theorem Follows.ofExcept_bind {ends : σ → β → Prop} {x : Except E α}
    {f : α → Prog Op Answer Err E β} {s : σ}
    (hf : ∀ a, x = .ok a → Follows next allows ends (f a) s) :
    Follows next allows ends (Prog.ofExcept x >>= f) s := by
  cases x with
  | error e => trivial
  | ok a => exact hf a rfl

end Programs

/-! Systems. -/

inductive Thread (P : Type) where
  | waiting
  | running (p : P)
  | ended
  deriving DecidableEq

structure World (S I P : Type) where
  shared : S
  thread : I → Thread P

/-- What may happen to the shared state from outside and by threads in given local states. -/
structure System (S I P : Type) where
  env : S → S → Prop
  begins : I → S → P → Prop
  acts : I → P → S → P → S → Prop
  ends : I → P → S → S → Prop

section Systems
variable {S I P Q : Type} [DecidableEq I]

/-- One step of one thread, or one from outside. A running thread may also be abandoned. -/
inductive System.Step (sys : System S I P) : World S I P → World S I P → Prop
  | env {s s' : S} {t : I → Thread P} (h : sys.env s s') : sys.Step ⟨s, t⟩ ⟨s', t⟩
  | begins {s : S} {t : I → Thread P} {i : I} {p : P} (hi : t i = .waiting) (h : sys.begins i s p) :
      sys.Step ⟨s, t⟩ ⟨s, Function.update t i (.running p)⟩
  | acts {s s' : S} {t : I → Thread P} {i : I} {p p' : P} (hi : t i = .running p)
      (h : sys.acts i p s p' s') : sys.Step ⟨s, t⟩ ⟨s', Function.update t i (.running p')⟩
  | ends {s s' : S} {t : I → Thread P} {i : I} {p : P} (hi : t i = .running p)
      (h : sys.ends i p s s') : sys.Step ⟨s, t⟩ ⟨s', Function.update t i .ended⟩
  | abandon {s : S} {t : I → Thread P} {i : I} {p : P} (hi : t i = .running p) :
      sys.Step ⟨s, t⟩ ⟨s, Function.update t i .ended⟩

/-- The states that a system reaches from a shared state with no thread begun. -/
inductive System.Reachable (sys : System S I P) (start : S) : World S I P → Prop
  | start : sys.Reachable start ⟨start, fun _ => .waiting⟩
  | step {w w' : World S I P} (h : sys.Reachable start w) (hs : sys.Step w w') :
      sys.Reachable start w'

namespace System.Reachable
variable {sys : System S I P} {start s s' : S} {t : I → Thread P} {i : I} {p p' : P}

theorem begins (h : sys.Reachable start ⟨s, t⟩) (hi : t i = .waiting) (hb : sys.begins i s p) :
    sys.Reachable start ⟨s, Function.update t i (.running p)⟩ :=
  h.step (.begins hi hb)

theorem acts (h : sys.Reachable start ⟨s, t⟩) (hi : t i = .running p) (ha : sys.acts i p s p' s') :
    sys.Reachable start ⟨s', Function.update t i (.running p')⟩ :=
  h.step (.acts hi ha)

theorem ends (h : sys.Reachable start ⟨s, t⟩) (hi : t i = .running p) (he : sys.ends i p s s') :
    sys.Reachable start ⟨s', Function.update t i .ended⟩ :=
  h.step (.ends hi he)

end System.Reachable

/-! Replacing local states. -/

/-- Local states of one system stand for local states of another. -/
structure Simulates (sys : System S I P) (sys' : System S I Q) (rel : P → Q → Prop) : Prop where
  env : ∀ s s', sys.env s s' → sys'.env s s'
  begins : ∀ i s p, sys.begins i s p → ∃ q, sys'.begins i s q ∧ rel p q
  acts : ∀ i p q s p' s', rel p q → sys.acts i p s p' s' → ∃ q', sys'.acts i q s q' s' ∧ rel p' q'
  ends : ∀ i p q s s', rel p q → sys.ends i p s s' → sys'.ends i q s s'

inductive ThreadRel (rel : P → Q → Prop) : Thread P → Thread Q → Prop
  | waiting : ThreadRel rel .waiting .waiting
  | running {p : P} {q : Q} (h : rel p q) : ThreadRel rel (.running p) (.running q)
  | ended : ThreadRel rel .ended .ended

theorem threadRel_update {rel : P → Q → Prop} {t : I → Thread P} {t' : I → Thread Q} {i : I}
    {a : Thread P} {b : Thread Q} (h : ∀ j, ThreadRel rel (t j) (t' j)) (hab : ThreadRel rel a b)
    (j : I) : ThreadRel rel (Function.update t i a j) (Function.update t' i b j) := by
  by_cases hj : j = i
  · subst hj
    simpa using hab
  · simpa [Function.update_of_ne hj] using h j

omit [DecidableEq I] in
theorem ThreadRel.of_waiting {rel : P → Q → Prop} {t : I → Thread P} {t' : I → Thread Q} {i : I}
    (h : ThreadRel rel (t i) (t' i)) (hi : t i = .waiting) : t' i = .waiting := by
  rw [hi] at h
  generalize t' i = b at h ⊢
  cases h
  rfl

omit [DecidableEq I] in
theorem ThreadRel.of_running {rel : P → Q → Prop} {t : I → Thread P} {t' : I → Thread Q} {i : I}
    {p : P} (h : ThreadRel rel (t i) (t' i)) (hi : t i = .running p) :
    ∃ q, t' i = .running q ∧ rel p q := by
  rw [hi] at h
  generalize t' i = b at h ⊢
  cases h with
  | running hpq => exact ⟨_, rfl, hpq⟩

theorem Simulates.reachable {sys : System S I P} {sys' : System S I Q} {rel : P → Q → Prop}
    (hsim : Simulates sys sys' rel) {start : S} {w : World S I P} (h : sys.Reachable start w) :
    ∃ t', sys'.Reachable start ⟨w.shared, t'⟩ ∧ ∀ j, ThreadRel rel (w.thread j) (t' j) := by
  induction h with
  | start => exact ⟨_, .start, fun _ => .waiting⟩
  | step _ hs ih =>
    obtain ⟨t', hr, hrel⟩ := ih
    cases hs with
    | env henv => exact ⟨t', .step hr (.env (hsim.env _ _ henv)), hrel⟩
    | begins hi hb =>
      obtain ⟨q, hq, hpq⟩ := hsim.begins _ _ _ hb
      exact ⟨_, hr.begins ((hrel _).of_waiting hi) hq, threadRel_update hrel (.running hpq)⟩
    | acts hi ha =>
      obtain ⟨q, hq, hpq⟩ := (hrel _).of_running hi
      obtain ⟨q', hq', hpq'⟩ := hsim.acts _ _ q _ _ _ hpq ha
      exact ⟨_, hr.acts hq hq', threadRel_update hrel (.running hpq')⟩
    | ends hi he =>
      obtain ⟨q, hq, hpq⟩ := (hrel _).of_running hi
      exact ⟨_, hr.ends hq (hsim.ends _ _ q _ _ hpq he), threadRel_update hrel .ended⟩
    | abandon hi =>
      obtain ⟨q, hq, hpq⟩ := (hrel _).of_running hi
      exact ⟨_, .step hr (.abandon hq), threadRel_update hrel .ended⟩

/-! Proof outlines. -/

/-- An invariant of the shared state, what a thread knows in each local state, and an order in
which the shared state grows and which keeps that knowledge true. -/
structure Outline (sys : System S I P) (grows : S → S → Prop) (inv : S → Prop)
    (knows : I → P → S → Prop) : Prop where
  stable : ∀ i p s s', grows s s' → inv s → inv s' → knows i p s → knows i p s'
  env : ∀ s s', sys.env s s' → inv s → inv s' ∧ grows s s'
  begins : ∀ i s p, sys.begins i s p → inv s → knows i p s
  acts : ∀ i p s p' s', sys.acts i p s p' s' → inv s → knows i p s →
    inv s' ∧ grows s s' ∧ knows i p' s'
  ends : ∀ i p s s', sys.ends i p s s' → inv s → knows i p s → inv s' ∧ grows s s'

/-- Further invariants and knowledge, shown with those of an outline at hand. -/
structure Extension (sys : System S I P) (grows : S → S → Prop) (inv : S → Prop)
    (knows : I → P → S → Prop) (inv' : S → Prop) (knows' : I → P → S → Prop) : Prop where
  stable : ∀ i p s s', grows s s' → inv s → inv s' → inv' s → inv' s' → knows' i p s → knows' i p s'
  env : ∀ s s', sys.env s s' → grows s s' → inv s → inv s' → inv' s → inv' s'
  begins : ∀ i s p, sys.begins i s p → inv s → inv' s → knows' i p s
  acts : ∀ i p s p' s', sys.acts i p s p' s' → grows s s' → inv s → inv s' → knows i p s →
    knows i p' s' → inv' s → knows' i p s → inv' s' ∧ knows' i p' s'
  ends : ∀ i p s s', sys.ends i p s s' → grows s s' → inv s → inv s' → knows i p s → inv' s →
    knows' i p s → inv' s'

omit [DecidableEq I] in
theorem Outline.extend {sys : System S I P} {grows : S → S → Prop} {inv inv' : S → Prop}
    {knows knows' : I → P → S → Prop} (ho : Outline sys grows inv knows)
    (he : Extension sys grows inv knows inv' knows') :
    Outline sys grows (fun s => inv s ∧ inv' s) fun i p s => knows i p s ∧ knows' i p s where
  stable i p s s' hg h h' hk :=
    ⟨ho.stable i p s s' hg h.1 h'.1 hk.1, he.stable i p s s' hg h.1 h'.1 h.2 h'.2 hk.2⟩
  env s s' hs h := by
    obtain ⟨hinv, hg⟩ := ho.env s s' hs h.1
    exact ⟨⟨hinv, he.env s s' hs hg h.1 hinv h.2⟩, hg⟩
  begins i s p hb h := ⟨ho.begins i s p hb h.1, he.begins i s p hb h.1 h.2⟩
  acts i p s p' s' ha h hk := by
    obtain ⟨hinv, hg, hk'⟩ := ho.acts i p s p' s' ha h.1 hk.1
    obtain ⟨hinv', hk''⟩ := he.acts i p s p' s' ha hg h.1 hinv hk.1 hk' h.2 hk.2
    exact ⟨⟨hinv, hinv'⟩, hg, hk', hk''⟩
  ends i p s s' hs h hk := by
    obtain ⟨hinv, hg⟩ := ho.ends i p s s' hs h.1 hk.1
    exact ⟨⟨hinv, he.ends i p s s' hs hg h.1 hinv hk.1 h.2 hk.2⟩, hg⟩

theorem running_update {t : I → Thread P} {i j : I} {a : Thread P} {q : P}
    (h : Function.update t i a j = .running q) :
    (j = i ∧ a = .running q) ∨ (j ≠ i ∧ t j = .running q) := by
  by_cases hji : j = i
  · subst hji
    rw [Function.update_self] at h
    exact Or.inl ⟨rfl, h⟩
  · rw [Function.update_of_ne hji] at h
    exact Or.inr ⟨hji, h⟩

theorem Outline.reachable {sys : System S I P} {grows : S → S → Prop} {inv : S → Prop}
    {knows : I → P → S → Prop} (ho : Outline sys grows inv knows) {start : S} (hstart : inv start)
    {w : World S I P} (h : sys.Reachable start w) :
    inv w.shared ∧ ∀ i p, w.thread i = .running p → knows i p w.shared := by
  induction h with
  | start => exact ⟨hstart, fun i p hi => by cases hi⟩
  | step _ hs ih =>
    obtain ⟨hinv, hknows⟩ := ih
    cases hs with
    | env henv =>
      obtain ⟨hinv', hgrows⟩ := ho.env _ _ henv hinv
      exact ⟨hinv', fun i p hi => ho.stable i p _ _ hgrows hinv hinv' (hknows i p hi)⟩
    | begins hi hb =>
      refine ⟨hinv, fun j q hj => ?_⟩
      rcases running_update hj with ⟨rfl, heq⟩ | ⟨_, hj⟩
      · cases heq
        exact ho.begins _ _ _ hb hinv
      · exact hknows j q hj
    | @acts s s' t i p p' hi ha =>
      obtain ⟨hinv', hgrows, hown⟩ := ho.acts i p s p' s' ha hinv (hknows i p hi)
      refine ⟨hinv', fun j q hj => ?_⟩
      rcases running_update hj with ⟨rfl, heq⟩ | ⟨_, hj⟩
      · cases heq
        exact hown
      · exact ho.stable j q s s' hgrows hinv hinv' (hknows j q hj)
    | @ends s s' t i p hi he =>
      obtain ⟨hinv', hgrows⟩ := ho.ends i p s s' he hinv (hknows i p hi)
      refine ⟨hinv', fun j q hj => ?_⟩
      rcases running_update hj with ⟨rfl, heq⟩ | ⟨_, hj⟩
      · cases heq
      · exact ho.stable j q s s' hgrows hinv hinv' (hknows j q hj)
    | abandon hi =>
      refine ⟨hinv, fun j q hj => ?_⟩
      rcases running_update hj with ⟨rfl, heq⟩ | ⟨_, hj⟩
      · cases heq
      · exact hknows j q hj

end Systems

end Threads
