import AuruPm.Lib.Threads

/-!
# Programs among others

What a program guarantees while others act between its calls. `Meets` follows the program call
by call: others may move the state as `rely` allows, the call has to be one that `may` be made,
and the postcondition is about the answer and the last state. With equality as `rely` the
program runs alone.
-/

namespace Threads

set_option autoImplicit false

variable {Op : Type} {Answer : Op → Type} {Err E α β S : Type}

/-- One call whose failure is an answer too. -/
def Prog.attempt (op : Op) : Prog Op Answer Err E (Except Err (Answer op)) := .call op .done

/-- A program whose failure is an answer too. -/
def Prog.outcome : Prog Op Answer Err E α → Prog Op Answer Err E (Except E α)
  | .done a => .done (.ok a)
  | .fail e => .done (.error e)
  | .call op next => .call op fun r => (next r).outcome

theorem Prog.bind_assoc {γ : Type} (x : Prog Op Answer Err E α) (f : α → Prog Op Answer Err E β)
    (g : β → Prog Op Answer Err E γ) : ((x >>= f) >>= g) = x >>= fun a => f a >>= g := by
  induction x with
  | done a => rfl
  | fail e => rfl
  | call op next ih =>
    simp only [Prog.call_bind]
    congr
    exact funext ih

/-! Results under some answers. -/

/-- Some answers lead the program to this result. -/
def Prog.Returns : Prog Op Answer Err E α → α → Prop
  | .done b, a => b = a
  | .fail _, _ => False
  | .call _ next, a => ∃ r, (next r).Returns a

namespace Prog

@[simp] theorem returns_done {a b : α} : (Prog.done b : Prog Op Answer Err E α).Returns a ↔ b = a :=
  Iff.rfl

@[simp] theorem returns_fail {a : α} {e : E} :
    ¬ (Prog.fail e : Prog Op Answer Err E α).Returns a :=
  id

@[simp] theorem returns_bind {b : β} {x : Prog Op Answer Err E α} {f : α → Prog Op Answer Err E β} :
    (x >>= f).Returns b ↔ ∃ a, x.Returns a ∧ (f a).Returns b := by
  induction x with
  | done a => simp
  | fail e => simp
  | call op next ih =>
    simp only [call_bind, Returns, ih]
    constructor
    · rintro ⟨r, a, hr, ha⟩
      exact ⟨a, ⟨r, hr⟩, ha⟩
    · rintro ⟨a, ⟨r, hr⟩, ha⟩
      exact ⟨r, a, hr, ha⟩

@[simp] theorem returns_run {op : Op} {explain : Err → E} (a : Answer op) :
    (Prog.run op explain : Prog Op Answer Err E (Answer op)).Returns a :=
  ⟨.ok a, rfl⟩

@[simp] theorem returns_ofExcept {a : α} {x : Except E α} :
    (Prog.ofExcept x : Prog Op Answer Err E α).Returns a ↔ x = .ok a := by
  cases x <;> simp [ofExcept]

end Prog

/-! Which calls are made. -/

/-- Every call that the program may come to passes a test. -/
def Prog.Only (p : Op → Prop) : Prog Op Answer Err E α → Prop
  | .done _ => True
  | .fail _ => True
  | .call op next => p op ∧ ∀ r, (next r).Only p

namespace Prog
variable {p q : Op → Prop}

theorem only_pure (a : α) : (pure a : Prog Op Answer Err E α).Only p := trivial

theorem only_run {op : Op} {explain : Err → E} (h : p op) :
    (Prog.run op explain : Prog Op Answer Err E (Answer op)).Only p := by
  refine ⟨h, fun r => ?_⟩
  cases r <;> trivial

theorem only_ofExcept (x : Except E α) : (Prog.ofExcept x : Prog Op Answer Err E α).Only p := by
  cases x <;> trivial

theorem Only.bind {x : Prog Op Answer Err E α} {f : α → Prog Op Answer Err E β} (hx : x.Only p)
    (hf : ∀ a, (f a).Only p) : (x >>= f).Only p := by
  induction x with
  | done a => exact hf a
  | fail e => trivial
  | call op next ih => exact ⟨hx.1, fun r => ih r (hx.2 r)⟩

theorem only_true (x : Prog Op Answer Err E α) : x.Only fun _ => True := by
  induction x with
  | done a => trivial
  | fail e => trivial
  | call op next ih => exact ⟨trivial, ih⟩

theorem Only.imp {x : Prog Op Answer Err E α} (hx : x.Only p) (h : ∀ op, p op → q op) : x.Only q := by
  induction x with
  | done a => trivial
  | fail e => trivial
  | call op next ih => exact ⟨h op hx.1, fun r => ih r (hx.2 r)⟩

end Prog

/-- A condition on good ends only. -/
def onOk (Q : α → S → Prop) : Except E α → S → Prop
  | .ok a, s => Q a s
  | .error _, _ => True

section Rules
variable (rely : S → S → Prop) (step : S → (op : Op) → Except Err (Answer op) → S → Prop)
variable (may : S → Op → Prop)

/-- From this state the program makes only calls that it may, and ends as promised. -/
def Meets (post : Except E α → S → Prop) : Prog Op Answer Err E α → S → Prop
  | .done a, s => ∀ s', rely s s' → post (.ok a) s'
  | .fail e, s => ∀ s', rely s s' → post (.error e) s'
  | .call op next, s => ∀ s₁, rely s s₁ → may s₁ op ∧
      ∀ r s₂, step s₁ op r s₂ → Meets post (next r) s₂

variable {rely step may}

theorem Meets.stable (htrans : ∀ s s' s'', rely s s' → rely s' s'' → rely s s'')
    {post : Except E α → S → Prop} {x : Prog Op Answer Err E α} {s s' : S} (h : rely s s')
    (hx : Meets rely step may post x s) : Meets rely step may post x s' := by
  cases x with
  | done a => exact fun s'' hs => hx s'' (htrans s s' s'' h hs)
  | fail e => exact fun s'' hs => hx s'' (htrans s s' s'' h hs)
  | call op next => exact fun s'' hs => hx s'' (htrans s s' s'' h hs)

theorem Meets.weaken {post post' : Except E α → S → Prop} {x : Prog Op Answer Err E α} {s : S}
    (h : Meets rely step may post x s) (hsub : ∀ r s, post r s → post' r s) :
    Meets rely step may post' x s := by
  induction x generalizing s with
  | done a => exact fun s' hs => hsub _ _ (h s' hs)
  | fail e => exact fun s' hs => hsub _ _ (h s' hs)
  | call op next ih =>
    intro s₁ hs
    obtain ⟨hmay, hnext⟩ := h s₁ hs
    exact ⟨hmay, fun r s₂ hstep => ih r (hnext r s₂ hstep)⟩

/-- What a program ends with, some answers lead it to. -/
theorem Meets.returns {post : Except E α → S → Prop} {x : Prog Op Answer Err E α} {s : S}
    (h : Meets rely step may post x s) :
    Meets rely step may (fun r s => post r s ∧ ∀ a, r = .ok a → x.Returns a) x s := by
  induction x generalizing s with
  | done a => exact fun s' hs => ⟨h s' hs, fun b hb => Except.ok.inj hb⟩
  | fail e => exact fun s' hs => ⟨h s' hs, fun b hb => by cases hb⟩
  | call op next ih =>
    intro s₁ hs
    obtain ⟨hmay, hnext⟩ := h s₁ hs
    refine ⟨hmay, fun r s₂ hstep => (ih r (hnext r s₂ hstep)).weaken fun r' s₃ h' => ?_⟩
    exact ⟨h'.1, fun a ha => ⟨r, h'.2 a ha⟩⟩

/-- Where `x` ends well `f` takes over; where it fails the whole fails. -/
theorem Meets.bind (hrefl : ∀ s, rely s s) {post : Except E β → S → Prop}
    {x : Prog Op Answer Err E α} {f : α → Prog Op Answer Err E β} {s : S}
    (h : Meets rely step may (fun r s => match r with
      | .ok a => Meets rely step may post (f a) s
      | .error e => post (.error e) s) x s) :
    Meets rely step may post (x >>= f) s := by
  induction x generalizing s with
  | done a => exact h s (hrefl s)
  | fail e => exact h
  | call op next ih =>
    intro s₁ hs
    obtain ⟨hmay, hnext⟩ := h s₁ hs
    exact ⟨hmay, fun r s₂ hstep => ih r (hnext r s₂ hstep)⟩

theorem Meets.attempt_bind {post : Except E β → S → Prop} {op : Op}
    {f : Except Err (Answer op) → Prog Op Answer Err E β} {s : S}
    (h : ∀ s₁, rely s s₁ → may s₁ op ∧
      ∀ r s₂, step s₁ op r s₂ → Meets rely step may post (f r) s₂) :
    Meets rely step may post (Prog.attempt op >>= f) s :=
  h

theorem Meets.run_bind {post : Except E β → S → Prop} {op : Op} {explain : Err → E}
    {f : Answer op → Prog Op Answer Err E β} {s : S}
    (hmay : ∀ s₁, rely s s₁ → may s₁ op)
    (hok : ∀ s₁ a s₂, rely s s₁ → step s₁ op (.ok a) s₂ → Meets rely step may post (f a) s₂)
    (herr : ∀ s₁ e s₂ s₃, rely s s₁ → step s₁ op (.error e) s₂ → rely s₂ s₃ →
      post (.error (explain e)) s₃) :
    Meets rely step may post (Prog.run op explain >>= f) s := by
  intro s₁ hs
  refine ⟨hmay s₁ hs, fun r s₂ hstep => ?_⟩
  cases r with
  | ok a => exact hok s₁ a s₂ hs hstep
  | error e => exact fun s₃ hs₃ => herr s₁ e s₂ s₃ hs hstep hs₃

/-- Where a failure is looked at, the program goes on from either end. -/
theorem Meets.outcome_bind (hrefl : ∀ s, rely s s) {post : Except E β → S → Prop}
    {x : Prog Op Answer Err E α} {f : Except E α → Prog Op Answer Err E β} {s : S}
    (h : Meets rely step may (fun r s => Meets rely step may post (f r) s) x s) :
    Meets rely step may post (x.outcome >>= f) s := by
  induction x generalizing s with
  | done a => exact h s (hrefl s)
  | fail e => exact h s (hrefl s)
  | call op next ih =>
    intro s₁ hs
    obtain ⟨hmay, hnext⟩ := h s₁ hs
    exact ⟨hmay, fun r s₂ hstep => ih r (hnext r s₂ hstep)⟩

theorem Meets.ofExcept_bind {post : Except E β → S → Prop} {x : Except E α}
    {f : α → Prog Op Answer Err E β} {s : S}
    (hok : ∀ a, x = .ok a → Meets rely step may post (f a) s)
    (herr : ∀ e, x = .error e → ∀ s', rely s s' → post (.error e) s') :
    Meets rely step may post (Prog.ofExcept x >>= f) s := by
  cases x with
  | ok a => exact hok a rfl
  | error e => exact herr e rfl

/-! Conditions on good ends. -/

theorem Meets.pure_ok {Q : α → S → Prop} {a : α} {s : S} (h : ∀ s', rely s s' → Q a s') :
    Meets rely step may (onOk Q) (pure a : Prog Op Answer Err E α) s :=
  h

theorem Meets.weaken_ok {Q P : α → S → Prop} {x : Prog Op Answer Err E α} {s : S}
    (h : Meets rely step may (onOk Q) x s) (hsub : ∀ a s, Q a s → P a s) :
    Meets rely step may (onOk P) x s := by
  refine h.weaken fun r s hr => ?_
  cases r with
  | ok a => exact hsub a s hr
  | error e => trivial

theorem Meets.always {Q : S → Prop} {x : Prog Op Answer Err E α} {s : S}
    (h : Meets rely step may (fun _ s => Q s) x s) :
    Meets rely step may (onOk fun _ s => Q s) x s := by
  refine h.weaken fun r s hr => ?_
  cases r with
  | ok a => exact hr
  | error e => trivial

theorem Meets.bind_ok (hrefl : ∀ s, rely s s) {Q : α → S → Prop} {P : β → S → Prop}
    {x : Prog Op Answer Err E α} {f : α → Prog Op Answer Err E β} {s : S}
    (h : Meets rely step may (onOk Q) x s)
    (hf : ∀ a s', Q a s' → Meets rely step may (onOk P) (f a) s') :
    Meets rely step may (onOk P) (x >>= f) s := by
  refine Meets.bind hrefl (h.weaken fun r s' hr => ?_)
  cases r with
  | ok a => exact hf a s' hr
  | error e => trivial

theorem Meets.run_bind_ok {P : β → S → Prop} {op : Op} {explain : Err → E}
    {f : Answer op → Prog Op Answer Err E β} {s : S} (hmay : ∀ s₁, rely s s₁ → may s₁ op)
    (hok : ∀ s₁ a s₂, rely s s₁ → step s₁ op (.ok a) s₂ → Meets rely step may (onOk P) (f a) s₂) :
    Meets rely step may (onOk P) (Prog.run op explain >>= f) s :=
  Meets.run_bind hmay hok fun _ _ _ _ _ _ _ => trivial

/-- What every call that the program may come to keeps, the program keeps. -/
theorem Meets.invariant {p : Op → Prop} {inv : S → Prop}
    (hrely : ∀ s s', rely s s' → inv s → inv s')
    (hstep : ∀ op s r s', p op → step s op r s' → inv s → inv s')
    (hmay : ∀ s op, p op → inv s → may s op) {x : Prog Op Answer Err E α} (hx : x.Only p) {s : S}
    (h : inv s) : Meets rely step may (fun _ s => inv s) x s := by
  induction x generalizing s with
  | done a => exact fun s' hs => hrely s s' hs h
  | fail e => exact fun s' hs => hrely s s' hs h
  | call op next ih =>
    intro s₁ hs
    have h₁ := hrely s s₁ hs h
    exact ⟨hmay s₁ op hx.1 h₁, fun r s₂ hs₂ => ih r (hx.2 r) (hstep op s₁ r s₂ hx.1 hs₂ h₁)⟩

end Rules

/-! Complete runs. -/

section Runs
variable (step : S → (op : Op) → Except Err (Answer op) → S → Prop)

/-- The program, alone, leads from the first state to the second and ends so. -/
inductive Runs : S → Prog Op Answer Err E α → S → Except E α → Prop
  | done (s : S) (a : α) : Runs s (.done a) s (.ok a)
  | fail (s : S) (e : E) : Runs s (.fail e) s (.error e)
  | call {s s' s'' : S} {op : Op} {next : Except Err (Answer op) → Prog Op Answer Err E α}
      {r : Except Err (Answer op)} {result : Except E α} (h : step s op r s')
      (rest : Runs s' (next r) s'' result) : Runs s (.call op next) s'' result

variable {step} {may : S → Op → Prop}

/-- A run of a composite that ends well is a run of each part. -/
theorem Runs.bind_ok {x : Prog Op Answer Err E α} {f : α → Prog Op Answer Err E β} {s s'' : S}
    {b : β} (h : Runs step s (x >>= f) s'' (.ok b)) :
    ∃ a s', Runs step s x s' (.ok a) ∧ Runs step s' (f a) s'' (.ok b) := by
  induction x generalizing s with
  | done a => exact ⟨a, s, .done s a, h⟩
  | fail e => cases h
  | call op next ih =>
    cases h with
    | call hstep rest =>
      obtain ⟨a, s', hx, hf⟩ := ih _ rest
      exact ⟨a, s', .call hstep hx, hf⟩

theorem Runs.bind {x : Prog Op Answer Err E α} {f : α → Prog Op Answer Err E β} {s s' s'' : S}
    {a : α} {result : Except E β} (hx : Runs step s x s' (.ok a))
    (hf : Runs step s' (f a) s'' result) : Runs step s (x >>= f) s'' result := by
  induction x generalizing s with
  | done b =>
    cases hx
    exact hf
  | fail e => cases hx
  | call op next ih =>
    cases hx with
    | call hstep rest => exact .call hstep (ih _ rest)

theorem Runs.bind_error {x : Prog Op Answer Err E α} {f : α → Prog Op Answer Err E β} {s s' : S}
    {e : E} (hx : Runs step s x s' (.error e)) : Runs step s (x >>= f) s' (.error e) := by
  induction x generalizing s with
  | done b => cases hx
  | fail e' =>
    cases hx
    exact .fail _ _
  | call op next ih =>
    cases hx with
    | call hstep rest => exact .call hstep (ih _ rest)

/-- Runs a program whose calls all succeed. -/
def Prog.succeed (perform : S → (op : Op) → Except Err (Answer op × S)) :
    S → Prog Op Answer Err E α → Option (S × Except E α)
  | s, .done a => some (s, .ok a)
  | s, .fail e => some (s, .error e)
  | s, .call op next =>
    match perform s op with
    | .ok (a, s') => succeed perform s' (next (.ok a))
    | .error _ => none

theorem runs_of_succeed {perform : S → (op : Op) → Except Err (Answer op × S)}
    (hstep : ∀ s op a s', perform s op = .ok (a, s') → step s op (.ok a) s')
    {x : Prog Op Answer Err E α} {s s' : S} {result : Except E α}
    (h : x.succeed perform s = some (s', result)) : Runs step s x s' result := by
  induction x generalizing s with
  | done a =>
    cases h
    exact .done _ _
  | fail e =>
    cases h
    exact .fail _ _
  | call op next ih =>
    unfold Prog.succeed at h
    split at h
    · rename_i a s₁ hp
      exact .call (hstep s op a s₁ hp) (ih _ h)
    · cases h

/-- The program, alone, can end so. -/
def CanEnd (step : S → (op : Op) → Except Err (Answer op) → S → Prop) (post : S → Prop)
    (result : Except E α) (x : Prog Op Answer Err E α) (s : S) : Prop :=
  ∃ s', Runs step s x s' result ∧ post s'

theorem CanEnd.done {post : S → Prop} {a : α} {s : S} (h : post s) :
    CanEnd step post (.ok a) (.done a : Prog Op Answer Err E α) s :=
  ⟨s, .done s a, h⟩

theorem CanEnd.fail {post : S → Prop} {e : E} {s : S} (h : post s) :
    CanEnd step post (.error e) (.fail e : Prog Op Answer Err E α) s :=
  ⟨s, .fail s e, h⟩

theorem CanEnd.call {post : S → Prop} {result : Except E α} {s s' : S} {op : Op}
    {next : Except Err (Answer op) → Prog Op Answer Err E α} {r : Except Err (Answer op)}
    (h : step s op r s') (rest : CanEnd step post result (next r) s') :
    CanEnd step post result (.call op next) s := by
  obtain ⟨s'', hr, hpost⟩ := rest
  exact ⟨s'', .call h hr, hpost⟩

theorem CanEnd.bind {mid post : S → Prop} {result : Except E β} {x : Prog Op Answer Err E α}
    {f : α → Prog Op Answer Err E β} {a : α} {s : S} (hx : CanEnd step mid (.ok a) x s)
    (hf : ∀ s', mid s' → CanEnd step post result (f a) s') :
    CanEnd step post result (x >>= f) s := by
  obtain ⟨s', hr, hmid⟩ := hx
  obtain ⟨s'', hr', hpost⟩ := hf s' hmid
  exact ⟨s'', hr.bind hr', hpost⟩

/-- What a program guarantees alone, every run of it shows. -/
theorem Meets.run {post : Except E α → S → Prop} {x : Prog Op Answer Err E α} {s s' : S}
    {result : Except E α} (h : Meets Eq step may post x s) (hr : Runs step s x s' result) :
    post result s' := by
  induction hr with
  | done s a => exact h s rfl
  | fail s e => exact h s rfl
  | call hstep _ ih => exact ih ((h _ rfl).2 _ _ hstep)

/-- A call once others have moved the state. -/
def amid (rely : S → S → Prop) (step : S → (op : Op) → Except Err (Answer op) → S → Prop) :
    S → (op : Op) → Except Err (Answer op) → S → Prop :=
  fun s op r s'' => ∃ s', rely s s' ∧ step s' op r s''

/-- What a program guarantees among others, every run of it among them shows. -/
theorem Meets.runAmid {rely : S → S → Prop} {post : Except E α → S → Prop}
    {x : Prog Op Answer Err E α} {s s' s'' : S} {result : Except E α}
    (h : Meets rely step may post x s) (hr : Runs (amid rely step) s x s' result)
    (hlast : rely s' s'') : post result s'' := by
  induction hr with
  | done s a => exact h s'' hlast
  | fail s e => exact h s'' hlast
  | call hstep _ ih =>
    obtain ⟨s₁, hrely, hcall⟩ := hstep
    exact ih ((h s₁ hrely).2 _ _ hcall) hlast

variable (step) in
/-- The program, alone, comes by this state, and may be stopped there. -/
inductive Stops : S → Prog Op Answer Err E α → S → Prop
  | here (s : S) (x : Prog Op Answer Err E α) : Stops s x s
  | call {s s' s'' : S} {op : Op} {next : Except Err (Answer op) → Prog Op Answer Err E α}
      {r : Except Err (Answer op)} (h : step s op r s') (rest : Stops s' (next r) s'') :
      Stops s (.call op next) s''

/-- What holds before each call and at the end holds wherever the program is stopped. -/
theorem Meets.stops {post : Except E α → S → Prop} {inv : S → Prop}
    {x : Prog Op Answer Err E α} {s s' : S} (h : Meets Eq step may post x s)
    (hmay : ∀ s op, may s op → inv s) (hpost : ∀ r s, post r s → inv s)
    (hs : Stops step s x s') : inv s' := by
  induction hs with
  | here s x =>
    cases x with
    | done a => exact hpost _ _ (h s rfl)
    | fail e => exact hpost _ _ (h s rfl)
    | call op next => exact hmay s op (h s rfl).1
  | call hstep _ ih => exact ih ((h _ rfl).2 _ _ hstep)

/-- Where every call has an answer, every program has a run. -/
theorem exists_run (perform : S → (op : Op) → Except Err (Answer op) × S)
    (x : Prog Op Answer Err E α) (s : S) :
    ∃ s' result, Runs (fun s op r s' => perform s op = (r, s')) s x s' result := by
  induction x generalizing s with
  | done a => exact ⟨s, .ok a, .done s a⟩
  | fail e => exact ⟨s, .error e, .fail s e⟩
  | call op next ih =>
    obtain ⟨s', result, hr⟩ := ih (perform s op).1 (perform s op).2
    exact ⟨s', result, .call rfl hr⟩

/-- Where a call has one answer, a program that runs alone is followed call by call. -/
theorem meets_call_iff {perform : S → (op : Op) → Except Err (Answer op) × S}
    {post : Except E α → S → Prop} {op : Op}
    {next : Except Err (Answer op) → Prog Op Answer Err E α} {s : S} :
    Meets Eq (fun s op r s' => perform s op = (r, s')) may post (.call op next) s ↔
      may s op ∧ Meets Eq (fun s op r s' => perform s op = (r, s')) may post
        (next (perform s op).1) (perform s op).2 := by
  constructor
  · intro h
    obtain ⟨hmay, hnext⟩ := h s rfl
    exact ⟨hmay, hnext _ _ rfl⟩
  · intro ⟨hmay, hnext⟩ s₁ hs
    subst hs
    refine ⟨hmay, fun r s₂ hstep => ?_⟩
    rw [hstep] at hnext
    exact hnext

end Runs

end Threads
