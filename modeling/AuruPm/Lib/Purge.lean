import Mathlib.Data.List.Basic

/-!
# Answers that depend on one's own inputs

A machine answers a list of inputs one after another. To leave out the inputs of others changes
no answer to one's own, when two states that look the same to us answer us in the same way, and
an input of others leaves a state that looks as before.
-/

namespace Purge

set_option autoImplicit false

universe u v w

variable {S : Type u} {I : Type v} {O : Type w}

section Runs
variable (step : S → I → S × O) (mine : I → Bool)

/-- The answers to our inputs. -/
def answers (s : S) : List I → List O
  | [] => []
  | i :: is =>
    if mine i = true then (step s i).2 :: answers (step s i).1 is else answers (step s i).1 is

/-- Alike states cannot be told apart by inputs of a kind, now or later. -/
structure Unwinding (Kind : I → Prop) (Inv : S → Prop) (Alike : S → S → Prop) : Prop where
  keeps : ∀ {s i}, Inv s → Inv (step s i).1
  own : ∀ {s t i}, Kind i → Inv s → Inv t → Alike s t → mine i = true →
    (step s i).2 = (step t i).2 ∧ Alike (step s i).1 (step t i).1
  other : ∀ {s t i}, Inv s → Alike s t → mine i = false → Alike (step s i).1 t

variable {step mine} {Kind : I → Prop} {Inv : S → Prop} {Alike : S → S → Prop}

theorem Unwinding.answers_filter (h : Unwinding step mine Kind Inv Alike) {s t : S} (hs : Inv s)
    (ht : Inv t) (hst : Alike s t) {is : List I} (his : ∀ i ∈ is, mine i = true → Kind i) :
    answers step mine s is = answers step mine t (is.filter mine) := by
  induction is generalizing s t with
  | nil => rfl
  | cons i is ih =>
    have hrest : ∀ j ∈ is, mine j = true → Kind j := fun j hj => his j (List.mem_cons_of_mem i hj)
    cases hi : mine i with
    | false =>
      rw [answers, List.filter_cons_of_neg (by simp [hi]), if_neg (by simp [hi])]
      exact ih (h.keeps hs) ht (h.other hs hst hi) hrest
    | true =>
      obtain ⟨hanswer, hnext⟩ := h.own (his i List.mem_cons_self hi) hs ht hst hi
      rw [answers, List.filter_cons_of_pos hi, answers, if_pos hi, if_pos hi, hanswer,
        ih (h.keeps hs) (h.keeps ht) hnext hrest]

/-- Two runs with the same inputs of ours get the same answers. -/
theorem Unwinding.answers_eq (h : Unwinding step mine Kind Inv Alike) {s : S} (hs : Inv s)
    (hss : Alike s s) {is js : List I} (his : ∀ i ∈ is, mine i = true → Kind i)
    (hij : is.filter mine = js.filter mine) : answers step mine s is = answers step mine s js := by
  have hjs : ∀ j ∈ js, mine j = true → Kind j := by
    intro j hj hmine
    have hmem : j ∈ is.filter mine := hij ▸ List.mem_filter.mpr ⟨hj, hmine⟩
    exact his j (List.mem_of_mem_filter hmem) hmine
  rw [h.answers_filter hs hs hss his, h.answers_filter hs hs hss hjs, hij]

end Runs

end Purge
