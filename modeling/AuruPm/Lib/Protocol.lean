import AuruPm.Lib.Threads

/-!
# Programs that share a lock

Threads of programs whose operations never fail, each following a protocol by phases. What a
thread knows may rest on others keeping off what it holds: every step is shown to be one that the
other threads rely on, not only one that all threads may take.
-/

namespace Threads

set_option autoImplicit false

variable {S I P : Type} [DecidableEq I]

/-- An invariant, what running and waiting threads know, and for each thread what it relies on
others to do. -/
structure RelyOutline (sys : System S I P) (rely : I → S → S → Prop) (inv : S → Prop)
    (waits : I → S → Prop) (knows : I → P → S → Prop) : Prop where
  stable : ∀ i p s s', rely i s s' → inv s → inv s' → knows i p s → knows i p s'
  waiting : ∀ i s s', rely i s s' → waits i s → waits i s'
  env : ∀ s s', sys.env s s' → inv s → inv s' ∧ ∀ i, rely i s s'
  begins : ∀ i s p, sys.begins i s p → inv s → waits i s → knows i p s
  acts : ∀ i p s p' s', sys.acts i p s p' s' → inv s → knows i p s →
    inv s' ∧ knows i p' s' ∧ ∀ j, j ≠ i → rely j s s'
  ends : ∀ i p s s', sys.ends i p s s' → inv s → knows i p s → inv s' ∧ ∀ j, j ≠ i → rely j s s'

/-- What holds of a world. -/
structure RelyOutline.Holds (inv : S → Prop) (waits : I → S → Prop) (knows : I → P → S → Prop)
    (w : World S I P) : Prop where
  shared : inv w.shared
  waiting : ∀ i, w.thread i = .waiting → waits i w.shared
  running : ∀ i p, w.thread i = .running p → knows i p w.shared

section Reachable
variable {sys : System S I P} {rely : I → S → S → Prop} {inv : S → Prop} {waits : I → S → Prop}
  {knows : I → P → S → Prop}

/-- A thread takes its own step, and all others find what they rely on. -/
theorem RelyOutline.Holds.update (ho : RelyOutline sys rely inv waits knows) {s s' : S}
    {t : I → Thread P} {i : I} {a : Thread P} (h : Holds inv waits knows ⟨s, t⟩) (hinv : inv s')
    (hrely : ∀ j, j ≠ i → rely j s s') (hwait : a ≠ .waiting)
    (hown : ∀ p, a = .running p → knows i p s') :
    Holds inv waits knows ⟨s', Function.update t i a⟩ where
  shared := hinv
  waiting j hj := by
    change Function.update t i a j = .waiting at hj
    by_cases hji : j = i
    · subst hji
      rw [Function.update_self] at hj
      exact absurd hj hwait
    · rw [Function.update_of_ne hji] at hj
      exact ho.waiting j s s' (hrely j hji) (h.waiting j hj)
  running j p hj := by
    rcases running_update hj with ⟨rfl, heq⟩ | ⟨hji, hj⟩
    · exact hown p heq
    · exact ho.stable j p s s' (hrely j hji) h.shared hinv (h.running j p hj)

theorem RelyOutline.reachable (ho : RelyOutline sys rely inv waits knows)
    (hrefl : ∀ i s, rely i s s) {start : S} (hstart : inv start) (hwaits : ∀ i, waits i start)
    {w : World S I P} (h : sys.Reachable start w) : Holds inv waits knows w := by
  induction h with
  | start => exact ⟨hstart, fun i _ => hwaits i, fun i p hi => nomatch hi⟩
  | step _ hs ih =>
    cases hs with
    | env henv =>
      obtain ⟨hinv, hrely⟩ := ho.env _ _ henv ih.shared
      exact ⟨hinv, fun i hi => ho.waiting i _ _ (hrely i) (ih.waiting i hi),
        fun i p hi => ho.stable i p _ _ (hrely i) ih.shared hinv (ih.running i p hi)⟩
    | begins hi hb =>
      refine ih.update ho ih.shared (fun j _ => hrefl j _) (fun h => nomatch h) fun p hp => ?_
      cases hp
      exact ho.begins _ _ _ hb ih.shared (ih.waiting _ hi)
    | acts hi ha =>
      obtain ⟨hinv, hown, hrely⟩ := ho.acts _ _ _ _ _ ha ih.shared (ih.running _ _ hi)
      refine ih.update ho hinv hrely (fun h => nomatch h) fun p hp => ?_
      cases hp
      exact hown
    | ends hi he =>
      obtain ⟨hinv, hrely⟩ := ho.ends _ _ _ _ he ih.shared (ih.running _ _ hi)
      exact ih.update ho hinv hrely (fun h => nomatch h) fun p hp => nomatch hp
    | abandon hi =>
      exact ih.update ho ih.shared (fun j _ => hrefl j _) (fun h => nomatch h) fun p hp => nomatch hp

end Reachable

/-! Programs. -/

section Programs
variable {Op : Type} {Answer : Op → Type} {E α σ : Type}

/-- Asks for an operation that always answers. -/
def demand (op : Op) : Prog Op Answer Empty E (Answer op) := .run op Empty.elim

/-- Threads of such programs. A call may also be cancelled, which ends the thread. -/
def programs (env : S → S → Prop) (starts : I → Prog Op Answer Empty E α → Prop)
    (performs : I → S → (op : Op) → Answer op → S → Prop) (cancels : I → Op → S → S → Prop) :
    System S I (Prog Op Answer Empty E α) where
  env := env
  begins i _ p := starts i p
  acts i p s p' s' := ∃ op k r, p = .call op k ∧ performs i s op r s' ∧ p' = k (.ok r)
  ends i p s s' := s' = s ∧ (∀ op k, p ≠ .call op k) ∨ ∃ op k, p = .call op k ∧ cancels i op s s'

theorem programs_performs {env : S → S → Prop}
    {starts : I → Prog Op Answer Empty E α → Prop}
    {performs : I → S → (op : Op) → Answer op → S → Prop} {cancels : I → Op → S → S → Prop}
    {start s s' : S} {t : I → Thread (Prog Op Answer Empty E α)}
    (h : (programs env starts performs cancels).Reachable start ⟨s, t⟩) (i : I) (op : Op)
    (r : Answer op) {k : Except Empty (Answer op) → Prog Op Answer Empty E α}
    (hi : t i = .running (.call op k)) (hr : performs i s op r s') :
    (programs env starts performs cancels).Reachable start
      ⟨s', Function.update t i (.running (k (.ok r)))⟩ :=
  h.acts hi ⟨op, k, r, rfl, hr, rfl⟩

theorem programs_cancels {env : S → S → Prop}
    {starts : I → Prog Op Answer Empty E α → Prop}
    {performs : I → S → (op : Op) → Answer op → S → Prop} {cancels : I → Op → S → S → Prop}
    {start s s' : S} {t : I → Thread (Prog Op Answer Empty E α)}
    (h : (programs env starts performs cancels).Reachable start ⟨s, t⟩) (i : I) (op : Op)
    {k : Except Empty (Answer op) → Prog Op Answer Empty E α}
    (hi : t i = .running (.call op k)) (hc : cancels i op s s') :
    (programs env starts performs cancels).Reachable start ⟨s', Function.update t i .ended⟩ :=
  h.ends hi (.inr ⟨op, k, rfl, hc⟩)

/-- An outline over the phases of a protocol, one obligation for an operation. -/
structure ProtocolOutline (env : S → S → Prop) (starts : I → Prog Op Answer Empty E α → Prop)
    (performs : I → S → (op : Op) → Answer op → S → Prop) (cancels : I → Op → S → S → Prop)
    (next : σ → (op : Op) → Answer op → σ) (allows : σ → Op → Prop) (rely : I → S → S → Prop)
    (inv : S → Prop) (waits : I → S → Prop) (knows : I → σ → S → Prop) : Prop where
  refl : ∀ i s, rely i s s
  stable : ∀ i phase s s', rely i s s' → inv s → inv s' → knows i phase s → knows i phase s'
  waiting : ∀ i s s', rely i s s' → waits i s → waits i s'
  env : ∀ s s', env s s' → inv s → inv s' ∧ ∀ i, rely i s s'
  starts : ∀ i p s, starts i p → inv s → waits i s →
    ∃ phase, Follows next allows (fun _ _ => True) p phase ∧ knows i phase s
  performs : ∀ i phase s op r s', allows phase op → performs i s op r s' → inv s →
    knows i phase s → inv s' ∧ knows i (next phase op r) s' ∧ ∀ j, j ≠ i → rely j s s'
  cancels : ∀ i phase s op s', allows phase op → cancels i op s s' → inv s → knows i phase s →
    inv s' ∧ ∀ j, j ≠ i → rely j s s'

variable {env : S → S → Prop} {starts : I → Prog Op Answer Empty E α → Prop}
  {performs : I → S → (op : Op) → Answer op → S → Prop} {cancels : I → Op → S → S → Prop}
  {next : σ → (op : Op) → Answer op → σ} {allows : σ → Op → Prop} {rely : I → S → S → Prop}
  {inv : S → Prop} {waits : I → S → Prop} {knows : I → σ → S → Prop}

omit [DecidableEq I] in
/-- A thread knows what some phase that its program follows from knows. -/
theorem ProtocolOutline.relyOutline
    (ho : ProtocolOutline env starts performs cancels next allows rely inv waits knows) :
    RelyOutline (programs env starts performs cancels) rely inv waits fun i p s =>
      ∃ phase, Follows next allows (fun _ _ => True) p phase ∧ knows i phase s where
  stable i p s s' hrely hinv hinv' := by
    rintro ⟨phase, hfollows, hknows⟩
    exact ⟨phase, hfollows, ho.stable i phase s s' hrely hinv hinv' hknows⟩
  waiting := ho.waiting
  env := ho.env
  begins i s p := ho.starts i p s
  acts i p s p' s' := by
    rintro ⟨op, k, r, rfl, hperforms, rfl⟩ hinv ⟨phase, hfollows, hknows⟩
    obtain ⟨hallows, hok, -⟩ := hfollows
    obtain ⟨hinv', hknows', hrely⟩ := ho.performs i phase s op r s' hallows hperforms hinv hknows
    exact ⟨hinv', ⟨_, hok r, hknows'⟩, hrely⟩
  ends i p s s' := by
    rintro (⟨rfl, -⟩ | ⟨op, k, rfl, hcancels⟩) hinv ⟨phase, hfollows, hknows⟩
    · exact ⟨hinv, fun j _ => ho.refl j _⟩
    · exact ho.cancels i phase s op s' hfollows.1 hcancels hinv hknows

theorem ProtocolOutline.reachable
    (ho : ProtocolOutline env starts performs cancels next allows rely inv waits knows) {start : S}
    (hstart : inv start) (hwaits : ∀ i, waits i start)
    {w : World S I (Prog Op Answer Empty E α)}
    (h : (programs env starts performs cancels).Reachable start w) : inv w.shared :=
  (ho.relyOutline.reachable ho.refl hstart hwaits h).shared

end Programs

end Threads
