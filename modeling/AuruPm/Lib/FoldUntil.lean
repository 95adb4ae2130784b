import Mathlib.Data.List.Basic

/-!
# Folding until a budget is spent

A fold over a list that stops as soon as the state says so. When the last state does not say so,
nothing was left out.
-/

namespace FoldUntil

set_option autoImplicit false

universe u v w

variable {C : Type u} {S : Type v} (stop : S → Bool) (body : C → S → S)

def foldUntil : List C → S → S
  | [], s => s
  | c :: cs, s => if stop (body c s) = true then body c s else foldUntil cs (body c s)

variable {stop body}

/-- What every turn keeps. -/
theorem foldUntil_keeps {P : S → Prop} (hbody : ∀ c s, P s → P (body c s)) (cs : List C) {s : S}
    (hs : P s) : P (foldUntil stop body cs s) := by
  induction cs generalizing s with
  | nil => exact hs
  | cons c cs ih =>
    rw [foldUntil]
    split
    · exact hbody c s hs
    · exact ih (hbody c s hs)

/-- A fold that is not stopped gathers what all its turns add. -/
theorem foldUntil_gathers {A : Type w} (gathered : S → List A) {items : C → List A}
    (hbody : ∀ c s, stop (body c s) = false → gathered (body c s) = gathered s ++ items c)
    (cs : List C) {s : S} (h : stop (foldUntil stop body cs s) = false) :
    gathered (foldUntil stop body cs s) = gathered s ++ cs.flatMap items := by
  induction cs generalizing s with
  | nil => rw [foldUntil, List.flatMap_nil, List.append_nil]
  | cons c cs ih =>
    rw [foldUntil] at h ⊢
    by_cases hc : stop (body c s) = true
    · rw [if_pos hc] at h
      rw [h] at hc
      cases hc
    · have hc' : stop (body c s) = false := by simpa using hc
      rw [if_neg hc] at h ⊢
      rw [ih h, hbody c s hc', List.flatMap_cons, List.append_assoc]

end FoldUntil
