import AuruPm.Lib.Rely

/-!
# Programs that only ask

A program whose calls change nothing can be run against fixed answers. Then it depends on the
calls that it comes to and on nothing else: whoever gives the same answers to these, be it several
states one after the other, leads it to the same result.
-/

namespace Threads

set_option autoImplicit false

variable {Op : Type} {Answer : Op → Type} {Err E α β S : Type}

/-- What the program ends with when each call has one answer. -/
def Prog.eval (answer : (op : Op) → Except Err (Answer op)) : Prog Op Answer Err E α → Except E α
  | .done a => .ok a
  | .fail e => .error e
  | .call op next => (next (answer op)).eval answer

/-- The calls that it comes to then, in order. -/
def Prog.asked (answer : (op : Op) → Except Err (Answer op)) : Prog Op Answer Err E α → List Op
  | .done _ => []
  | .fail _ => []
  | .call op next => op :: (next (answer op)).asked answer

namespace Prog
variable {answer : (op : Op) → Except Err (Answer op)}

@[simp] theorem eval_done (a : α) : (Prog.done a : Prog Op Answer Err E α).eval answer = .ok a := rfl

@[simp] theorem eval_fail (e : E) :
    (Prog.fail e : Prog Op Answer Err E α).eval answer = .error e := rfl

@[simp] theorem asked_done (a : α) : (Prog.done a : Prog Op Answer Err E α).asked answer = [] := rfl

@[simp] theorem eval_ofExcept (x : Except E α) :
    (Prog.ofExcept x : Prog Op Answer Err E α).eval answer = x := by
  cases x <;> rfl

@[simp] theorem asked_ofExcept (x : Except E α) :
    (Prog.ofExcept x : Prog Op Answer Err E α).asked answer = [] := by
  cases x <;> rfl

theorem eval_ofExcept_map {x : Except E α} {f : α → β} :
    (Prog.ofExcept x >>= fun a => pure (f a) : Prog Op Answer Err E β).eval answer = x.map f := by
  cases x <;> rfl

theorem asked_ofExcept_map {x : Except E α} {f : α → β} :
    (Prog.ofExcept x >>= fun a => pure (f a) : Prog Op Answer Err E β).asked answer = [] := by
  cases x <;> rfl

theorem eval_run_ok_iff {op : Op} {explain : Err → E} {r : Answer op} :
    (Prog.run op explain : Prog Op Answer Err E (Answer op)).eval answer = .ok r ↔
      answer op = .ok r := by
  simp only [run, eval]
  cases answer op <;> simp [eval]

@[simp] theorem asked_run (op : Op) (explain : Err → E) :
    (Prog.run op explain : Prog Op Answer Err E (Answer op)).asked answer = [op] := by
  simp only [run, asked]
  cases answer op <;> rfl

@[simp] theorem eval_attempt_bind {op : Op} {f : Except Err (Answer op) → Prog Op Answer Err E β} :
    (Prog.attempt op >>= f).eval answer = (f (answer op)).eval answer := rfl

@[simp] theorem asked_attempt_bind {op : Op} {f : Except Err (Answer op) → Prog Op Answer Err E β} :
    (Prog.attempt op >>= f).asked answer = op :: (f (answer op)).asked answer := rfl

theorem eval_bind_ok_iff {x : Prog Op Answer Err E α} {f : α → Prog Op Answer Err E β} {b : β} :
    (x >>= f).eval answer = .ok b ↔
      ∃ a, x.eval answer = .ok a ∧ (f a).eval answer = .ok b := by
  induction x with
  | done a => simp
  | fail e => simp
  | call op next ih => exact ih (answer op)

/-- A program without a value of its own, and another after it. -/
theorem eval_then_ok_iff {x : Prog Op Answer Err E Unit} {f : Unit → Prog Op Answer Err E β} {b : β} :
    (x >>= f).eval answer = .ok b ↔ x.eval answer = .ok () ∧ (f ()).eval answer = .ok b :=
  eval_bind_ok_iff.trans ⟨fun ⟨_, hx, hf⟩ => ⟨hx, hf⟩, fun ⟨hx, hf⟩ => ⟨(), hx, hf⟩⟩

theorem eval_bind {x : Prog Op Answer Err E α} {f : α → Prog Op Answer Err E β} {a : α}
    (h : x.eval answer = .ok a) : (x >>= f).eval answer = (f a).eval answer := by
  induction x with
  | done b =>
    cases h
    rfl
  | fail e => cases h
  | call op next ih => exact ih (answer op) h

theorem asked_bind {x : Prog Op Answer Err E α} {f : α → Prog Op Answer Err E β} {a : α}
    (h : x.eval answer = .ok a) :
    (x >>= f).asked answer = x.asked answer ++ (f a).asked answer := by
  induction x with
  | done b =>
    cases h
    rfl
  | fail e => cases h
  | call op next ih => exact congrArg (op :: ·) (ih (answer op) h)

theorem forall_asked_bind {x : Prog Op Answer Err E α} {f : α → Prog Op Answer Err E β}
    {P : Op → Prop} (hx : ∀ op ∈ x.asked answer, P op)
    (hf : ∀ a, x.eval answer = .ok a → ∀ op ∈ (f a).asked answer, P op) :
    ∀ op ∈ (x >>= f).asked answer, P op := by
  induction x with
  | done a => exact hf a rfl
  | fail e => exact hx
  | call op next ih =>
    obtain ⟨hop, hrest⟩ := List.forall_mem_cons.mp hx
    exact List.forall_mem_cons.mpr ⟨hop, ih (answer op) hrest hf⟩

/-- The answers to other calls do not matter. -/
theorem eval_congr {answer' : (op : Op) → Except Err (Answer op)} {x : Prog Op Answer Err E α}
    (h : ∀ op ∈ x.asked answer, answer' op = answer op) : x.eval answer' = x.eval answer := by
  induction x with
  | done a => rfl
  | fail e => rfl
  | call op next ih =>
    obtain ⟨hop, hrest⟩ := List.forall_mem_cons.mp h
    simp only [eval, hop]
    exact ih (answer op) hrest

end Prog

/-- A call of a state that it leaves as it is. -/
def Asks (answer : S → (op : Op) → Except Err (Answer op)) (s : S) (op : Op)
    (r : Except Err (Answer op)) (s' : S) : Prop :=
  r = answer s op ∧ s' = s

/-- Others may move the state in between, as long as the calls that the program comes to are
answered the same. -/
theorem meets_of_asked {rely : S → S → Prop} (htrans : ∀ s s' s'', rely s s' → rely s' s'' → rely s s'')
    {answer : S → (op : Op) → Except Err (Answer op)} {fixed : (op : Op) → Except Err (Answer op)}
    {x : Prog Op Answer Err E α} {s : S}
    (h : ∀ s', rely s s' → ∀ op ∈ x.asked fixed, answer s' op = fixed op) :
    Meets rely (Asks answer) (fun _ _ => True) (fun r _ => r = x.eval fixed) x s := by
  induction x generalizing s with
  | done a => exact fun _ _ => rfl
  | fail e => exact fun _ _ => rfl
  | call op next ih =>
    intro s₁ hs
    refine ⟨trivial, ?_⟩
    rintro r s₂ ⟨rfl, rfl⟩
    rw [h s₂ hs op List.mem_cons_self]
    exact ih (fixed op) fun s' hs' op' hop' =>
      h s' (htrans s s₂ s' hs hs') op' (List.mem_cons_of_mem _ hop')

end Threads
