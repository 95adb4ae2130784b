import Mathlib.Data.String.Basic

/-!
# Strings behind their lengths

A string written after its size in bytes can be told from what follows it.
-/

namespace LengthPrefix

set_option autoImplicit false

def field (s : String) : String := toString s.utf8ByteSize ++ ":" ++ s

theorem append_cons_inj {A : Type} {mark : A} {xs ys rest rest' : List A} (hx : mark ∉ xs)
    (hy : mark ∉ ys) (h : xs ++ mark :: rest = ys ++ mark :: rest') : xs = ys ∧ rest = rest' := by
  induction xs generalizing ys with
  | nil =>
    cases ys with
    | nil => exact ⟨rfl, (List.cons.inj h).2⟩
    | cons y ys =>
      have hmark : mark = y := (List.cons.inj h).1
      exact absurd (hmark ▸ List.mem_cons_self) hy
  | cons x xs ih =>
    cases ys with
    | nil =>
      have hmark : x = mark := (List.cons.inj h).1
      exact absurd (hmark ▸ List.mem_cons_self) hx
    | cons y ys =>
      obtain ⟨rfl, htail⟩ := List.cons.inj h
      obtain ⟨rfl, hrest⟩ := ih (fun hm => hx (List.mem_cons_of_mem _ hm))
        (fun hm => hy (List.mem_cons_of_mem _ hm)) htail
      exact ⟨rfl, hrest⟩

theorem not_mem_repr {mark : Char} (hmark : mark.isDigit = false) (n : Nat) :
    mark ∉ (toString n).toList := by
  intro h
  have hmem : mark ∈ Nat.toDigits 10 n := Nat.toList_repr ▸ h
  have hdigit := Nat.isDigit_of_mem_toDigits (by decide) (by decide) hmem
  rw [hmark] at hdigit
  cases hdigit

theorem repr_toList_inj {m n : Nat} (h : (toString m).toList = (toString n).toList) : m = n := by
  have hdigits : Nat.toDigits 10 m = Nat.toDigits 10 n :=
    Nat.toList_repr.symm.trans (h.trans Nat.toList_repr)
  calc m = Nat.ofDigitChars 10 (Nat.toDigits 10 m) 0 :=
        (Nat.ofDigitChars_toDigits (by decide) (by decide)).symm
    _ = Nat.ofDigitChars 10 (Nat.toDigits 10 n) 0 := by rw [hdigits]
    _ = n := Nat.ofDigitChars_toDigits (by decide) (by decide)

/-- Two strings of one size that start the same text are equal. -/
theorem eq_of_append_eq {s t : String} {a b : List Char} (h : s.toList ++ a = t.toList ++ b)
    (hsize : s.utf8ByteSize = t.utf8ByteSize) : s = t ∧ a = b := by
  have hlonger : ∀ {s t : String} {x : List Char}, t.toList = s.toList ++ x →
      s.utf8ByteSize = t.utf8ByteSize → x = [] := by
    intro s t x ht hsize
    have hts : t = s ++ String.ofList x := by
      apply String.toList_injective
      rw [ht, String.toList_append, String.toList_ofList]
    rw [hts, String.utf8ByteSize_append] at hsize
    have hzero : (String.ofList x).utf8ByteSize = 0 := by omega
    simpa using hzero
  rcases List.append_eq_append_iff.mp h with ⟨x, ht, ha⟩ | ⟨x, hs, hb⟩
  · obtain rfl := hlonger ht hsize
    rw [List.append_nil] at ht
    exact ⟨String.toList_injective ht.symm, ha⟩
  · obtain rfl := hlonger hs hsize.symm
    rw [List.append_nil] at hs
    exact ⟨String.toList_injective hs, hb.symm⟩

theorem field_append_inj {s t a b : String} (h : field s ++ a = field t ++ b) : s = t ∧ a = b := by
  have hlist := congrArg String.toList h
  simp only [field, String.toList_append, List.append_assoc] at hlist
  have hcolon : (":" : String).toList = [':'] := rfl
  rw [hcolon, List.cons_append, List.cons_append, List.nil_append, List.nil_append] at hlist
  obtain ⟨hdigits, hrest⟩ := append_cons_inj (not_mem_repr rfl _) (not_mem_repr rfl _) hlist
  have hsize : s.utf8ByteSize = t.utf8ByteSize := repr_toList_inj hdigits
  obtain ⟨hst, hab⟩ := eq_of_append_eq hrest hsize
  exact ⟨hst, String.toList_injective hab⟩

end LengthPrefix
