import Mathlib.Algebra.Group.Nat.Defs
import Mathlib.Data.List.Basic
import Mathlib.Tactic.Common

/-!
# Numbers in groups of seven bits

The spellings of a number as bytes of seven bits each, the low ones first, where every byte but
the last has its high bit set. A number has many spellings, and one of them is shortest.
-/

namespace Varint

set_option autoImplicit false

inductive Spells : List UInt8 → Nat → Prop
  | last {b : UInt8} (h : b.toNat < 128) : Spells [b] b.toNat
  | more {b : UInt8} {bs : List UInt8} {n : Nat} (h : 128 ≤ b.toNat) (hs : Spells bs n) :
    Spells (b :: bs) (b.toNat - 128 + 128 * n)

/-- The last byte is needed. -/
def Shortest : List UInt8 → Bool
  | [] => false
  | [_] => true
  | [_, b] => b ≠ 0
  | _ :: b :: bs => Shortest (b :: bs)

def write (n : Nat) : List UInt8 :=
  if n / 128 = 0 then [(n % 128).toUInt8] else (n % 128 + 128).toUInt8 :: write (n / 128)
termination_by n
decreasing_by omega

theorem toNat_toUInt8 {n : Nat} (h : n < 256) : n.toUInt8.toNat = n := by
  simp [Nat.mod_eq_of_lt h]

theorem spells_write (n : Nat) : Spells (write n) n := by
  induction n using Nat.strongRecOn with
  | ind n ih =>
    rw [write]
    split
    · have hbyte : (n % 128).toUInt8.toNat = n := by
        rw [toNat_toUInt8 (by omega)]
        omega
      have hlast : Spells [(n % 128).toUInt8] (n % 128).toUInt8.toNat := .last (by omega)
      rwa [hbyte] at hlast
    · have hbyte : (n % 128 + 128).toUInt8.toNat = n % 128 + 128 := toNat_toUInt8 (by omega)
      have hmore : Spells ((n % 128 + 128).toUInt8 :: write (n / 128))
          ((n % 128 + 128).toUInt8.toNat - 128 + 128 * (n / 128)) :=
        .more (by omega) (ih (n / 128) (by omega))
      have hsum : n % 128 + 128 - 128 + 128 * (n / 128) = n := by omega
      rwa [hbyte, hsum] at hmore

theorem Spells.ne_nil {bs : List UInt8} {n : Nat} (h : Spells bs n) : bs ≠ [] := by
  cases h with
  | last => exact List.cons_ne_nil _ _
  | more => exact List.cons_ne_nil _ _

/-- No spelling is the start of another one. -/
theorem Spells.append_inj {bs cs rest rest' : List UInt8} {n m : Nat} (h : Spells bs n)
    (h' : Spells cs m) (heq : bs ++ rest = cs ++ rest') : bs = cs ∧ rest = rest' := by
  induction h generalizing cs m with
  | last hb =>
    cases h' with
    | last hc =>
      obtain ⟨rfl, hrest⟩ := List.cons.inj heq
      exact ⟨rfl, hrest⟩
    | more hc hs =>
      obtain ⟨rfl, -⟩ := List.cons.inj heq
      omega
  | more hb hs ih =>
    cases h' with
    | last hc =>
      obtain ⟨rfl, -⟩ := List.cons.inj heq
      omega
    | more hc hs' =>
      obtain ⟨rfl, htail⟩ := List.cons.inj heq
      obtain ⟨rfl, hrest⟩ := ih hs' htail
      exact ⟨rfl, hrest⟩

theorem Spells.unique {bs : List UInt8} {n m : Nat} (h : Spells bs n) (h' : Spells bs m) :
    n = m := by
  induction h generalizing m with
  | last hb =>
    cases h' with
    | last => rfl
    | more _ hs => exact absurd rfl hs.ne_nil
  | more hb hs ih =>
    cases h' with
    | last => exact absurd rfl hs.ne_nil
    | more _ hs' => rw [ih hs']

theorem length_write_le {n k : Nat} (h : n < 2 ^ (7 * (k + 1))) : (write n).length ≤ k + 1 := by
  induction k generalizing n with
  | zero =>
    rw [write, if_pos (by omega)]
    exact Nat.le_refl 1
  | succ k ih =>
    rw [write]
    split
    · simp
    · have hpow : 2 ^ (7 * (k + 1 + 1)) = 2 ^ (7 * (k + 1)) * 128 := by
        rw [Nat.mul_add, Nat.pow_add]
      have htail := ih (n := n / 128) (by omega)
      rw [List.length_cons]
      omega

theorem write_ne_zero {n : Nat} (h : n ≠ 0) : write n ≠ [0] := by
  intro heq
  have hzero : Spells [0] 0 := .last (by decide)
  have hn := spells_write n
  rw [heq] at hn
  exact h (hn.unique hzero)

theorem shortest_write (n : Nat) : Shortest (write n) = true := by
  induction n using Nat.strongRecOn with
  | ind n ih =>
    rw [write]
    split
    · rfl
    · have htail := ih (n / 128) (by omega)
      cases hw : write (n / 128) with
      | nil => exact absurd hw (spells_write _).ne_nil
      | cons b bs =>
        rw [hw] at htail
        cases bs with
        | nil =>
          have hne : b ≠ 0 := fun hb => write_ne_zero (by omega) (hb ▸ hw)
          simp [Shortest, hne]
        | cons c bs => exact htail

theorem Spells.zero_eq {bs : List UInt8} (h : Spells bs 0) (hshort : Shortest bs = true) :
    bs = [0] := by
  generalize hn : (0 : Nat) = n at h
  induction h with
  | last hb => rw [UInt8.toNat_inj.mp (hn.symm.trans (UInt8.toNat_zero).symm)]
  | @more b bs n hb hs ih =>
    have hzero : 0 = n := by omega
    cases bs with
    | nil => exact absurd rfl hs.ne_nil
    | cons c bs =>
      cases bs with
      | nil =>
        have hc := ih rfl hzero
        rw [List.cons.inj hc |>.1] at hshort
        cases hshort
      | cons d bs =>
        have hc := ih hshort hzero
        cases hc

/-- The shortest spelling is the one that is written. -/
theorem Spells.eq_write_iff {bs : List UInt8} {n : Nat} (h : Spells bs n) :
    bs = write n ↔ Shortest bs = true := by
  constructor
  · intro heq
    rw [heq]
    exact shortest_write n
  · intro hshort
    induction h with
    | @last b hb =>
      rw [write, if_pos (by omega), Nat.mod_eq_of_lt hb]
      simp
    | @more b bs n hb hs ih =>
      have hbyte := b.toNat_lt
      cases bs with
      | nil => exact absurd rfl hs.ne_nil
      | cons c bs =>
        have hpos : n ≠ 0 := by
          rintro rfl
          cases bs with
          | nil =>
            have hc := hs.zero_eq rfl
            rw [List.cons.inj hc |>.1] at hshort
            cases hshort
          | cons d bs =>
            have hc := hs.zero_eq hshort
            cases hc
        have htail : c :: bs = write n := by
          cases bs with
          | nil => exact ih rfl
          | cons d bs => exact ih hshort
        rw [write, if_neg (by omega)]
        have hlow : (b.toNat - 128 + 128 * n) % 128 + 128 = b.toNat := by omega
        have hhigh : (b.toNat - 128 + 128 * n) / 128 = n := by omega
        rw [hlow, hhigh, ← htail]
        simp

end Varint
