import AuruPm.SdkWriter

/-!
# Canonical texts of the client libraries

The canonical text of a value is the compact text of the value with the members of every object in
the order of the UTF-16 units of their names. The three writers produce it for the values without
fractional numbers and without large integers, but Java also writes the least integer.
-/

namespace AuruPm

set_option autoImplicit false

open JsonValue CodeUnits

namespace Sdk

variable {T D : Type}

structure Writer.Lawful (W : Writer T D) : Prop where
  sort_map : ∀ (A B : Type) (f : A → B) (ms : List (T × A)),
    W.sort B (ms.map fun m => (m.1, f m.2)) = (W.sort A ms).map fun m => (m.1, f m.2)
  sort_perm : ∀ (A : Type) (ms : List (T × A)), (ms.map Prod.fst).Nodup → (W.sort A ms).Perm ms

/-- A value without a number that the canonical encoding refuses. -/
def Accepts (W : Writer T D) (v : JsonValue T D) : Prop :=
  Everywhere (fun w => (∀ number, w ≠ .dec number) ∧
    ∀ number, w = .int number → W.refuses number = false) v

section Write
variable {W : Writer T D}

theorem writeElements_eq_some {canonical : Bool} {f : JsonValue T D → List Nat}
    {elements : List (JsonValue T D)} (h : ∀ e ∈ elements, write W canonical e = some (f e)) :
    writeElements W canonical elements = some (elements.map f) := by
  induction elements with
  | nil => rw [writeElements, List.map_nil]
  | cons e es ih =>
    rw [writeElements, h e List.mem_cons_self, Option.bind_some,
      ih fun e he => h e (List.mem_cons_of_mem _ he)]
    rfl

theorem writeMembers_eq (canonical : Bool) (members : List (T × JsonValue T D)) :
    writeMembers W canonical members = members.map fun m => (m.1, write W canonical m.2) := by
  induction members with
  | nil => rw [writeMembers, List.map_nil]
  | cons m ms ih => rw [writeMembers, ih, List.map_cons]

theorem joinMembers_eq_some {A : Type} (string : T → List Nat) (f : A → List Nat)
    (ms : List (T × A)) :
    joinMembers string (ms.map fun m => (m.1, some (f m.2))) =
      some (ms.map fun m => string m.1 ++ ':'.toNat :: f m.2) := by
  induction ms with
  | nil => rfl
  | cons m ms ih =>
    rw [List.map_cons, joinMembers, Option.bind_some, ih]
    rfl

/-- The ordinary text is the compact text. -/
theorem write_false (v : JsonValue T D) : write W false v = some (compact W.string W.double v) := by
  induction v using induction with
  | arr elements ih =>
    rw [write, writeElements_eq_some ih, compact, compactElements_eq]
    rfl
  | obj members ih =>
    rw [write, compact, compactMembers_eq, writeMembers_eq]
    rw [if_neg Bool.false_ne_true, List.map_congr_left fun m hm => by rw [ih m hm],
      joinMembers_eq_some]
    rfl
  | _ => rfl

/-- Where no number is refused, the canonical text is the text of the sorted value. -/
theorem write_true (hW : W.Lawful) {v : JsonValue T D} (h : Accepts W v) :
    write W true v = some (compact W.string W.double (v.rebuild (W.sort _))) := by
  induction v using induction with
  | int number =>
    have := (h _ List.mem_cons_self).2 number rfl
    rw [write, this]
    rfl
  | dec number => exact absurd rfl ((h _ List.mem_cons_self).1 number)
  | arr elements ih =>
    rw [Accepts, everywhere_arr] at h
    rw [write, writeElements_eq_some fun e he => ih e he (h.2 e he), rebuild, compact,
      compactElements_eq, rebuildElements_eq, List.map_map]
    rfl
  | obj members ih =>
    rw [Accepts, everywhere_obj] at h
    rw [write, rebuild, compact, compactMembers_eq, writeMembers_eq, rebuildMembers_eq]
    let text (w : JsonValue T D) := compact W.string W.double (w.rebuild (W.sort _))
    rw [if_pos rfl, List.map_congr_left fun m hm => by rw [ih m hm (h.2 m hm)],
      hW.sort_map _ _ fun w => some (text w), joinMembers_eq_some W.string text, hW.sort_map,
      List.map_map]
    rfl
  | _ => rfl

theorem writeElements_isSome {canonical : Bool} {elements : List (JsonValue T D)}
    (h : (writeElements W canonical elements).isSome) :
    ∀ e ∈ elements, (write W canonical e).isSome := by
  induction elements with
  | nil => simp
  | cons e es ih =>
    rw [writeElements] at h
    cases he : write W canonical e with
    | none => simp [he] at h
    | some text =>
      rw [he, Option.bind_some, Option.isSome_map] at h
      intro e' he'
      rcases List.mem_cons.mp he' with rfl | he'
      · rw [he]
        rfl
      · exact ih h e' he'

theorem joinMembers_isSome {string : T → List Nat} {ms : List (T × Option (List Nat))}
    (h : (joinMembers string ms).isSome) : ∀ m ∈ ms, m.2.isSome := by
  induction ms with
  | nil => simp
  | cons m ms ih =>
    obtain ⟨name, text⟩ := m
    rw [joinMembers] at h
    cases text with
    | none => simp at h
    | some text =>
      rw [Option.bind_some, Option.isSome_map] at h
      intro m' hm'
      rcases List.mem_cons.mp hm' with rfl | hm'
      · rfl
      · exact ih h m' hm'

/-- A value that has a canonical text has no number that is refused. -/
theorem accepts_of_write (hW : W.Lawful) {v : JsonValue T D} (hv : v.Distinct)
    (h : (write W true v).isSome) : Accepts W v := by
  have hleaf : ∀ {w : JsonValue T D}, w.subvalues = [w] → (∀ number, w ≠ .dec number) →
      (∀ number, w = .int number → W.refuses number = false) → Accepts W w := by
    intro w hw hdec hint u hu
    rw [hw, List.mem_singleton] at hu
    subst hu
    exact ⟨hdec, hint⟩
  induction v using induction with
  | null => exact hleaf rfl (by simp) (by simp)
  | bool flag => exact hleaf rfl (by simp) (by simp)
  | str text => exact hleaf rfl (by simp) (by simp)
  | dec number => rw [write] at h; cases h
  | int number =>
    refine hleaf rfl (by simp) fun number' heq => ?_
    cases heq
    rw [write] at h
    cases hrefuses : W.refuses number with
    | false => rfl
    | true => simp [hrefuses] at h
  | arr elements ih =>
    rw [Distinct, everywhere_arr] at hv
    rw [write, Option.isSome_map] at h
    refine everywhere_arr.mpr ⟨⟨by simp, by simp⟩, fun e he => ?_⟩
    exact ih e he (hv.2 e he) (writeElements_isSome h e he)
  | obj members ih =>
    rw [Distinct, everywhere_obj] at hv
    rw [write, Option.isSome_map, if_pos rfl, writeMembers_eq] at h
    refine everywhere_obj.mpr ⟨⟨by simp, by simp⟩, fun m hm => ?_⟩
    have hnames : ((members.map fun m => (m.1, write W true m.2)).map Prod.fst).Nodup := by
      rw [List.map_map]
      exact hv.1
    exact ih m hm (hv.2 m hm) (joinMembers_isSome h (m.1, write W true m.2)
      ((hW.sort_perm _ _ hnames).mem_iff.mpr (List.mem_map_of_mem hm)))

end Write

/-! The order of member names in C++. -/

namespace Cpp

theorem or_eq_add {a b i : Nat} (h : b < 2 ^ i) : a <<< i ||| b = a * 2 ^ i + b := by
  rw [← Nat.shiftLeft_add_eq_or_of_lt h, Nat.shiftLeft_eq]

theorem or_or_eq_add {a b c : Nat} (hb : b < 64) (hc : c < 64) :
    a <<< 12 ||| b <<< 6 ||| c = a * 4096 + b * 64 + c := by
  have h : a <<< 12 ||| b <<< 6 = (a * 64 + b) <<< 6 := by
    rw [or_eq_add (by rw [Nat.shiftLeft_eq]; omega), Nat.shiftLeft_eq, Nat.shiftLeft_eq]
    omega
  rw [h, or_eq_add hc]
  omega

theorem or_or_or_eq_add {a b c d : Nat} (hb : b < 64) (hc : c < 64) (hd : d < 64) :
    a <<< 18 ||| b <<< 12 ||| c <<< 6 ||| d = a * 262144 + b * 4096 + c * 64 + d := by
  have h : a <<< 18 ||| b <<< 12 ||| c <<< 6 = (a * 4096 + b * 64 + c) <<< 6 := by
    have h₁ : a <<< 18 ||| b <<< 12 = (a * 64 + b) <<< 12 := by
      rw [or_eq_add (by rw [Nat.shiftLeft_eq]; omega), Nat.shiftLeft_eq, Nat.shiftLeft_eq]
      omega
    rw [h₁, or_eq_add (by rw [Nat.shiftLeft_eq]; omega), Nat.shiftLeft_eq, Nat.shiftLeft_eq]
    omega
  rw [h, or_eq_add hd]
  omega

theorem continuation_unit : ∀ x < 64, (0x80 + x) &&& 0x3F = x := by decide

theorem lead_two : ∀ x < 32, (0xC0 + x) &&& 0xE0 = 0xC0 ∧ (0xC0 + x) &&& 0x1F = x := by decide

theorem lead_three : ∀ x < 16, (0xE0 + x) &&& 0xE0 ≠ 0xC0 ∧ (0xE0 + x) &&& 0xF0 = 0xE0 ∧
    (0xE0 + x) &&& 0x0F = x := by decide

theorem lead_four : ∀ x < 8, (0xF0 + x) &&& 0xE0 ≠ 0xC0 ∧ (0xF0 + x) &&& 0xF0 ≠ 0xE0 ∧
    (0xF0 + x) &&& 0x07 = x := by decide

/-- The code point at the start of well formed bytes. -/
theorem nextCodePoint_utf8 {c : Nat} (hc : c < 0x110000) (r : List Nat) :
    nextCodePoint (utf8Units c ++ r) = (c, r) := by
  rcases utf8Units_cases c with ⟨h₁, hu⟩ | ⟨h₁, h₂, hu⟩ | ⟨h₁, h₂, hu⟩ | ⟨h₁, hu⟩ <;>
    rw [hu] <;> simp only [List.cons_append, List.nil_append, nextCodePoint]
  · rw [if_pos h₁]
  · obtain ⟨hlead, hbits⟩ := lead_two (c / 64) (by omega)
    rw [if_neg (by omega), if_pos hlead, hbits]
    simp only [List.getD_cons_zero, continuation_unit (c % 64) (by omega), List.drop_succ_cons,
      List.drop_zero]
    rw [or_eq_add (by omega)]
    congr 1
    omega
  · obtain ⟨hne, hlead, hbits⟩ := lead_three (c / 4096) (by omega)
    rw [if_neg (by omega), if_neg hne, if_pos hlead, hbits]
    simp only [List.getD_cons_zero, List.getD_cons_succ, continuation_unit (c / 64 % 64) (by omega),
      continuation_unit (c % 64) (by omega), List.drop_succ_cons, List.drop_zero]
    rw [or_or_eq_add (by omega) (by omega)]
    congr 1
    omega
  · obtain ⟨hne, hne', hbits⟩ := lead_four (c / 262144) (by omega)
    rw [if_neg (by omega), if_neg hne, if_neg hne', hbits]
    simp only [List.getD_cons_zero, List.getD_cons_succ, continuation_unit (c / 64 % 64) (by omega),
      continuation_unit (c / 4096 % 64) (by omega), continuation_unit (c % 64) (by omega),
      List.drop_succ_cons, List.drop_zero]
    rw [or_or_or_eq_add (by omega) (by omega) (by omega)]
    congr 1
    omega

theorem leadUnit_eq (c : Nat) : leadUnit c = CodeUnits.leadUnit c := by
  unfold leadUnit CodeUnits.leadUnit
  rw [Nat.shiftRight_eq_div_pow]
  split <;> split <;> omega

theorem utf8_cons (c : Char) (t : List Char) : utf8 (c :: t) = utf8Units c.toNat ++ utf8 t := rfl

theorem utf8_cons_ne_nil (c : Char) (t : List Char) : utf8 (c :: t) ≠ [] := by
  rw [utf8_cons]
  simp [transparent_utf8.ne_nil]

theorem utf16LessFrom_utf8 (left right : List Char) (fuel : Nat) (h : left.length ≤ fuel) :
    utf16LessFrom fuel (utf8 left) (utf8 right) = decide (utf16 left < utf16 right) := by
  have hnil : ∀ right : List Char,
      decide ((utf8 []).length < (utf8 right).length) = decide (utf16 [] < utf16 right) := by
    intro right
    cases right with
    | nil => rfl
    | cons d t =>
      have h₈ := List.length_pos_iff.mpr (utf8_cons_ne_nil d t)
      obtain ⟨u, units, h₁₆⟩ := List.exists_cons_of_ne_nil (transparent_utf16.ne_nil d.toNat)
      rw [decide_eq_decide, utf16_cons, h₁₆]
      exact ⟨fun _ => List.nil_lt_cons _ _, fun _ => h₈⟩
  induction left generalizing right fuel with
  | nil =>
    cases fuel with
    | zero => exact hnil right
    | succ fuel =>
      rw [utf16LessFrom, if_neg (by simp [utf8, scalars])]
      exact hnil right
  | cons c s ih =>
    obtain ⟨fuel, rfl⟩ : ∃ n, fuel = n + 1 := ⟨fuel - 1, by simp at h; omega⟩
    cases right with
    | nil =>
      rw [utf16LessFrom, if_neg (by simp [utf8, scalars]), utf16_nil]
      simp [utf8, scalars]
    | cons d t =>
      rw [utf16LessFrom, if_pos ⟨utf8_cons_ne_nil c s, utf8_cons_ne_nil d t⟩, utf8_cons, utf8_cons,
        nextCodePoint_utf8 (toNat_lt c), nextCodePoint_utf8 (toNat_lt d)]
      simp only [leadUnit_eq]
      rw [ih t fuel (by simpa using h)]
      simp only [utf16_cons_lt_cons]
      split
      · rfl
      · split <;> rfl

/-- The comparison of member names in C++ compares their UTF-16 units. -/
theorem utf16Less_utf8 (left right : List Char) :
    utf16Less (utf8 left) (utf8 right) = decide (utf16 left < utf16 right) := by
  refine utf16LessFrom_utf8 left right _ ?_
  induction left with
  | nil => exact Nat.zero_le _
  | cons c s ih =>
    have := List.length_pos_iff.mpr (transparent_utf8.ne_nil c.toNat)
    rw [utf8_cons, List.length_cons, List.length_append]
    omega

end Cpp

/-! The order of member names in Java. -/

namespace Java

theorem compareTo_cons (a b : Nat) (left right : List Nat) :
    compareTo (a :: left) (b :: right) = if a ≠ b then (a : Int) - b else compareTo left right := rfl

theorem compareTo_iff (left right : List Nat) :
    (compareTo left right < 0 ↔ left < right) ∧ (compareTo left right = 0 ↔ left = right) := by
  induction left generalizing right with
  | nil => cases right with
    | nil => simp [compareTo]
    | cons b right =>
      simp [compareTo]
      omega
  | cons a left ih =>
    cases right with
    | nil =>
      simp [compareTo]
      omega
    | cons b right =>
      rw [compareTo_cons, List.cons_lt_cons_iff, List.cons_eq_cons]
      by_cases hab : a = b
      · rw [if_neg (by simpa using hab)]
        simp [hab, ih right]
      · rw [if_pos hab]
        simp [hab]
        omega

theorem treePut_eq_insert {A : Type} (name : List Nat) (v : A) (ms : List (List Nat × A)) :
    treePut name v ms = SortedAssoc.insert name v ms := by
  induction ms with
  | nil => rfl
  | cons m ms ih =>
    obtain ⟨name', v'⟩ := m
    obtain ⟨hlt, heq⟩ := compareTo_iff name name'
    rw [treePut, SortedAssoc.insert, ih]
    split
    · rw [if_pos (hlt.mp ‹_›)]
    · rw [if_neg (fun h => ‹¬ _› (hlt.mpr h))]
      split
      · rename_i h
        rw [if_pos (heq.mp h), heq.mp h]
      · rw [if_neg (fun h => ‹¬ compareTo _ _ = 0› (heq.mpr h))]

theorem treeMap_eq {A : Type} (ms : List (List Nat × A)) :
    treeMap ms = ms.foldl (fun ms m => SortedAssoc.insert m.1 m.2 ms) [] := by
  simp only [treeMap, treePut_eq_insert]

theorem lawful_writer (doubleText : D → List Nat) : (writer doubleText).Lawful := by
  constructor
  · intro A B f ms
    change treeMap _ = (treeMap _).map _
    rw [treeMap_eq, treeMap_eq]
    exact SortedAssoc.foldl_insert_map f ms []
  · intro A ms h
    change (treeMap ms).Perm ms
    rw [treeMap_eq]
    simpa using SortedAssoc.perm_foldl_insert ms [] (by simpa using h)

end Java

theorem lawful_of_mergeSort {W : Writer T D} (less : T → T → Bool)
    (h : ∀ A : Type, W.sort A = fun ms => ms.mergeSort fun left right => !less right.1 left.1) :
    W.Lawful := by
  constructor
  · intro A B f ms
    rw [h, h]
    exact (List.map_mergeSort (f := fun m : T × A => (m.1, f m.2)) fun _ _ _ _ => rfl).symm
  · intro A ms _
    rw [h]
    exact List.mergeSort_perm ms _

/-! The canonical order. -/

/-- The members in the order of the UTF-16 units of their names. -/
def canonicalOrder {A : Type} (ms : List (List Char × A)) : List (List Char × A) :=
  ms.mergeSort fun left right => decide (utf16 left.1 ≤ utf16 right.1)

theorem perm_canonicalOrder {A : Type} (ms : List (List Char × A)) : (canonicalOrder ms).Perm ms :=
  List.mergeSort_perm ms _

theorem pairwise_canonicalOrder {A : Type} (ms : List (List Char × A)) :
    (canonicalOrder ms).Pairwise fun left right => utf16 left.1 ≤ utf16 right.1 := by
  have h := @List.pairwise_mergeSort _
    (fun left right : List Char × A => decide (utf16 left.1 ≤ utf16 right.1)) ?_ ?_ ms
  · exact h.imp of_decide_eq_true
  · intro a b c hab hbc
    exact decide_eq_true (le_trans (of_decide_eq_true hab) (of_decide_eq_true hbc))
  · intro a b
    simpa using le_total (utf16 a.1) (utf16 b.1)

theorem Cpp.sort_map {A : Type} (formatDouble : D → List Nat) (ms : List (List Char × A)) :
    (Cpp.writer formatDouble).sort A (ms.map fun m => (utf8 m.1, m.2)) =
      (canonicalOrder ms).map fun m => (utf8 m.1, m.2) := by
  refine (List.map_mergeSort fun left _ right _ => ?_).symm
  rw [Cpp.utf16Less_utf8, ← decide_not]
  exact decide_eq_decide.mpr not_lt.symm

/-- The comparison of member names in C++ is the order of their UTF-16 units. It is a strict total
order on texts, and a stable sort by it puts members in that order. -/
theorem Cpp.utf16Less_order {A : Type} (formatDouble : D → List Nat) :
    (∀ left right : List Char,
      Cpp.utf16Less (utf8 left) (utf8 right) = true ↔ utf16 left < utf16 right) ∧
    (∀ text : List Char, Cpp.utf16Less (utf8 text) (utf8 text) = false) ∧
    (∀ a b c : List Char, Cpp.utf16Less (utf8 a) (utf8 b) = true →
      Cpp.utf16Less (utf8 b) (utf8 c) = true → Cpp.utf16Less (utf8 a) (utf8 c) = true) ∧
    (∀ left right : List Char, left ≠ right →
      Cpp.utf16Less (utf8 left) (utf8 right) = true ∨
        Cpp.utf16Less (utf8 right) (utf8 left) = true) ∧
    ∀ members : List (List Char × A), ∃ ordered : List (List Char × A),
      (Cpp.writer formatDouble).sort A (members.map fun m => (utf8 m.1, m.2)) =
        (ordered.map fun m => (utf8 m.1, m.2)) ∧
      ordered.Perm members ∧
      ordered.Pairwise fun left right => utf16 left.1 ≤ utf16 right.1 := by
  have hless : ∀ left right : List Char,
      Cpp.utf16Less (utf8 left) (utf8 right) = true ↔ utf16 left < utf16 right := by
    intro left right
    rw [Cpp.utf16Less_utf8, decide_eq_true_iff]
  refine ⟨hless, ?_, ?_, ?_, ?_⟩
  · intro text
    rw [Cpp.utf16Less_utf8]
    exact decide_eq_false (lt_irrefl _)
  · intro a b c hab hbc
    rw [hless] at hab hbc ⊢
    exact hab.trans hbc
  · intro left right hne
    rw [hless, hless]
    exact lt_or_gt_of_ne fun heq => hne (utf16_injective heq)
  · intro members
    exact ⟨canonicalOrder members, Cpp.sort_map formatDouble members, perm_canonicalOrder members,
      pairwise_canonicalOrder members⟩

theorem Swift.unitsLess_eq (left right : List Nat) :
    Swift.unitsLess left right = decide (left < right) := by
  induction left generalizing right with
  | nil => cases right <;> simp [Swift.unitsLess]
  | cons a left ih =>
    cases right with
    | nil => simp [Swift.unitsLess]
    | cons b right =>
      rw [Swift.unitsLess, ih]
      by_cases hab : a = b
      · simp [hab]
      · simp [hab, List.cons_lt_cons_iff]

theorem Swift.sort_eq {A : Type} (doubleText : D → List Nat) (ms : List (List Char × A)) :
    (Swift.writer doubleText).sort A ms = canonicalOrder ms := by
  change ms.mergeSort _ = ms.mergeSort _
  congr 1
  funext left right
  rw [Swift.utf16Less, Swift.unitsLess_eq, ← decide_not]
  exact decide_eq_decide.mpr not_lt

theorem Java.sort_map {A : Type} (doubleText : D → List Nat) (ms : List (List Char × A))
    (h : (ms.map Prod.fst).Nodup) :
    (Java.writer doubleText).sort A (ms.map fun m => (utf16 m.1, m.2)) =
      (canonicalOrder ms).map fun m => (utf16 m.1, m.2) := by
  let encode (m : List Char × A) : List Nat × A := (utf16 m.1, m.2)
  have hnodup : ((ms.map encode).map Prod.fst).Nodup := by
    rw [List.map_map, show Prod.fst ∘ encode = utf16 ∘ Prod.fst from rfl, ← List.map_map]
    exact h.map utf16_injective
  have hsorted : SortedAssoc.Sorted (Java.treeMap (ms.map encode)) := by
    rw [Java.treeMap_eq]
    exact SortedAssoc.sorted_foldl_insert _ List.Pairwise.nil
  have hperm := (Java.lawful_writer doubleText).sort_perm A (ms.map encode) hnodup
  have hcanonical : ((canonicalOrder ms).map encode).Perm (ms.map encode) :=
    (perm_canonicalOrder ms).map encode
  refine @List.Perm.eq_of_pairwise _ (fun left right => left.1 ≤ right.1) _ _ ?_ ?_ ?_
    (hperm.trans hcanonical.symm)
  · intro left right hleft hright h₁ h₂
    exact List.inj_on_of_nodup_map hnodup (hperm.mem_iff.mp hleft) (hcanonical.mem_iff.mp hright)
      (le_antisymm h₁ h₂)
  · exact hsorted.imp fun h => le_of_lt h
  · rw [List.pairwise_map]
    exact pairwise_canonicalOrder ms

theorem canonicalOrder_map {A B : Type} (f : A → B) (ms : List (List Char × A)) :
    canonicalOrder (ms.map fun m => (m.1, f m.2)) = (canonicalOrder ms).map fun m => (m.1, f m.2) :=
  (List.map_mergeSort (f := fun m : List Char × A => (m.1, f m.2)) fun _ _ _ _ => rfl).symm

/-- The code points of the canonical text, for a value without fractional numbers. -/
def canonicalScalars (v : JsonValue (List Char) D) : List Nat :=
  compact (fun text => quote (scalars text)) (fun _ => []) (v.rebuild canonicalOrder)

/-- The bytes of the canonical text. -/
def rfc8785 (v : JsonValue (List Char) D) : List Nat := (canonicalScalars v).flatMap utf8Units

/-- Not a fractional number, and not an integer that the canonical text has no agreed form for. -/
def SafeNumber (w : JsonValue T D) : Prop :=
  (∀ number, w ≠ .dec number) ∧ ∀ number, w = .int number →
    -(2 ^ 53 - 1) ≤ number.toInt ∧ number.toInt ≤ 2 ^ 53 - 1

/-- A value that has a canonical text. -/
abbrev Encodable (v : JsonValue T D) : Prop := Everywhere SafeNumber v

/-- A writer over encoded texts that sorts as the canonical order does. -/
structure Writer.Encodes (W : Writer T D) (expand : Nat → List Nat) (encode : List Char → T) :
    Prop where
  transparent : Transparent expand
  string : ∀ text, W.string (encode text) = (quote (scalars text)).flatMap expand
  sort : ∀ (A : Type) (ms : List (List Char × A)), (ms.map Prod.fst).Nodup →
    W.sort A (ms.map fun m => (encode m.1, m.2)) = (canonicalOrder ms).map fun m => (encode m.1, m.2)

theorem integral_canonicalOrder {v : JsonValue (List Char) D} (h : v.Integral) :
    Integral (v.rebuild canonicalOrder) :=
  everywhere_rebuild (by simp) (by simp) (fun ms _ hm => (perm_canonicalOrder ms).mem_iff.mp hm) h

section Encodes
variable {W : Writer T D} {expand : Nat → List Nat} {encode : List Char → T}

theorem rebuild_encoded (hE : W.Encodes expand encode) {v : JsonValue (List Char) D}
    (hv : v.Distinct) :
    (v.map encode id).rebuild (W.sort _) = (v.rebuild canonicalOrder).map encode id := by
  refine rebuild_map (fun ms hms => ?_) hv
  have hnames : ((ms.map fun m => (m.1, m.2.map encode id)).map Prod.fst).Nodup := by
    rw [List.map_map]
    exact hms
  have := hE.sort _ _ hnames
  rwa [List.map_map, canonicalOrder_map, List.map_map] at this

theorem write_encoded (hW : W.Lawful) (hE : W.Encodes expand encode) {v : JsonValue (List Char) D}
    (hv : v.Distinct) (h : Accepts W (v.map encode id)) :
    write W true (v.map encode id) = some ((canonicalScalars v).flatMap expand) := by
  have hintegral : v.Integral := by
    intro w hw number heq
    exact (everywhere_map.mp h w hw).1 number (by rw [heq]; rfl)
  rw [write_true hW h, rebuild_encoded hE hv, canonicalScalars,
    compact_map hE.transparent hE.string fun w hw number heq =>
      absurd heq (integral_canonicalOrder hintegral w hw number)]

end Encodes

theorem Cpp.encodes (formatDouble : D → List Nat) :
    (Cpp.writer formatDouble).Encodes utf8Units utf8 where
  transparent := transparent_utf8
  string text := quote_flatMap transparent_utf8 (scalars text)
  sort _ ms _ := Cpp.sort_map formatDouble ms

theorem Java.encodes (doubleText : D → List Nat) :
    (Java.writer doubleText).Encodes utf16Units utf16 where
  transparent := transparent_utf16
  string text := quote_flatMap transparent_utf16 (scalars text)
  sort _ ms hms := Java.sort_map doubleText ms hms

theorem Swift.encodes (doubleText : D → List Nat) :
    (Swift.writer doubleText).Encodes (fun c => [c]) id where
  transparent := transparent_scalars
  string _ := (List.flatMap_singleton' _).symm
  sort _ ms _ := by simpa using Swift.sort_eq doubleText ms

theorem Cpp.lawful_writer (formatDouble : D → List Nat) : (Cpp.writer formatDouble).Lawful :=
  lawful_of_mergeSort Cpp.utf16Less fun _ => rfl

theorem Swift.lawful_writer (doubleText : D → List Nat) : (Swift.writer doubleText).Lawful :=
  lawful_of_mergeSort Swift.utf16Less fun _ => rfl

theorem safeNumber_map {f : List Char → T} (w : JsonValue (List Char) D) :
    SafeNumber (w.map f (id : D → D)) ↔ SafeNumber w := by
  cases w <;> simp [SafeNumber, map]

theorem Cpp.accepts_iff (formatDouble : D → List Nat) {v : JsonValue (List Nat) D} :
    Accepts (Cpp.writer formatDouble) v ↔ Encodable v := by
  refine forall₂_congr fun w _ => and_congr_right fun _ => forall₂_congr fun number _ => ?_
  simp only [Cpp.writer, maxSafeInteger, Bool.or_eq_false_iff, decide_eq_false_iff_not,
    Int64.lt_iff_toInt_lt, gt_iff_lt]
  have h₁ : (9007199254740991 : Int64).toInt = 2 ^ 53 - 1 := by decide
  have h₂ : (-9007199254740991 : Int64).toInt = -(2 ^ 53 - 1) := by decide
  omega

theorem Swift.accepts_iff (doubleText : D → List Nat) {v : JsonValue (List Char) D} :
    Accepts (Swift.writer doubleText) v ↔ Encodable v := by
  refine forall₂_congr fun w _ => and_congr_right fun _ => forall₂_congr fun number _ => ?_
  simp only [Swift.writer, maxSafeInteger, Bool.or_eq_false_iff, decide_eq_false_iff_not,
    Int64.lt_iff_toInt_lt, gt_iff_lt]
  have h₁ : (9007199254740991 : Int64).toInt = 2 ^ 53 - 1 := by decide
  have h₂ : (-9007199254740991 : Int64).toInt = -(2 ^ 53 - 1) := by decide
  omega

/-- The absolute value of the least integer is the least integer. -/
theorem abs_le_iff (number : Int64) : number.abs > maxSafeInteger ↔
    number ≠ Int64.minValue ∧ ¬ (-(2 ^ 53 - 1) ≤ number.toInt ∧ number.toInt ≤ 2 ^ 53 - 1) := by
  have h₁ : maxSafeInteger.toInt = 2 ^ 53 - 1 := by decide
  have habs : number.abs.toInt =
      if number = Int64.minValue then -2 ^ 63 else (number.toInt.natAbs : Int) := by
    change number.toBitVec.abs.toInt = _
    rw [BitVec.toInt_abs_eq_natAbs, ← Int64.toBitVec_minValue]
    simp only [Int64.toBitVec_inj]
    rfl
  rw [gt_iff_lt, Int64.lt_iff_toInt_lt, h₁, habs]
  split
  · rename_i h
    simp [h]
  · rename_i h
    simp only [ne_eq, h, not_false_eq_true, true_and]
    omega

theorem Java.accepts_iff (doubleText : D → List Nat) {v : JsonValue (List Nat) D} :
    Accepts (Java.writer doubleText) v ↔
      Everywhere (fun w => w = .int Int64.minValue ∨ SafeNumber w) v := by
  refine forall₂_congr fun w _ => ?_
  have hrefuses : ∀ number, (Java.writer doubleText).refuses number = false ↔
      number = Int64.minValue ∨ -(2 ^ 53 - 1) ≤ number.toInt ∧ number.toInt ≤ 2 ^ 53 - 1 := by
    intro number
    simp only [Java.writer, decide_eq_false_iff_not, abs_le_iff]
    tauto
  cases w <;> simp [SafeNumber, hrefuses]

/-! Java's bytes. -/

/-- The units of a code point that is not a surrogate turn into its bytes. -/
theorem Java.getBytes_utf16 {c : Nat} (h : c < 0xD800 ∨ 0xE000 ≤ c) (hc : c < 0x110000)
    (r : List Nat) : Java.getBytes (utf16Units c ++ r) = utf8Units c ++ Java.getBytes r := by
  unfold utf16Units
  split
  · rw [List.cons_append, List.nil_append, Java.getBytes.eq_def]
    simp only
    rw [if_neg (by omega), if_neg (by omega)]
  · rw [List.cons_append, List.cons_append, List.nil_append, Java.getBytes.eq_def]
    simp only
    rw [if_pos (by omega), if_pos (by omega)]
    have hpoint : 0x10000 + (0xD800 + (c - 0x10000) / 1024 - 0xD800) * 1024 +
        (0xDC00 + (c - 0x10000) % 1024 - 0xDC00) = c := by omega
    rw [hpoint]

theorem Java.getBytes_flatMap {l : List Nat}
    (h : ∀ c ∈ l, (c < 0xD800 ∨ 0xE000 ≤ c) ∧ c < 0x110000) :
    Java.getBytes (l.flatMap utf16Units) = l.flatMap utf8Units := by
  induction l with
  | nil => rfl
  | cons c l ih =>
    obtain ⟨hc, hlt⟩ := h c List.mem_cons_self
    rw [List.flatMap_cons, List.flatMap_cons, Java.getBytes_utf16 hc hlt,
      ih fun c hc => h c (List.mem_cons_of_mem _ hc)]

theorem canonicalScalars_valid (v : JsonValue (List Char) D) :
    ∀ c ∈ canonicalScalars v, (c < 0xD800 ∨ 0xE000 ≤ c) ∧ c < 0x110000 := by
  have hascii : ∀ u < 0x80, (u < 0xD800 ∨ 0xE000 ≤ u) ∧ u < 0x110000 := by
    intro u hu
    omega
  refine forall_mem_compact hascii (fun text => forall_mem_quote hascii fun u hu => ?_) (by simp) _
  obtain ⟨c, _, rfl⟩ := List.mem_map.mp hu
  exact ⟨not_surrogate c, toNat_lt c⟩

/-! The three encoders on one value. -/

section Encoders
variable (formatDouble javaDouble swiftDouble : D → List Nat)

theorem Cpp.canonical_of_encodable {v : JsonValue (List Char) D} (hv : v.Distinct) (h : Encodable v) :
    Cpp.toCanonicalJson formatDouble (v.map utf8 id) = some (rfc8785 v) := by
  have haccepts : Accepts (Cpp.writer formatDouble) (v.map utf8 id) :=
    (Cpp.accepts_iff _).mpr (everywhere_map.mpr fun w hw => (safeNumber_map w).mpr (h w hw))
  exact write_encoded (Cpp.lawful_writer formatDouble) (Cpp.encodes formatDouble) hv haccepts

theorem Cpp.encodable_of_canonical {v : JsonValue (List Char) D} (hv : v.Distinct)
    (h : (Cpp.toCanonicalJson formatDouble (v.map utf8 id)).isSome) : Encodable v := by
  have haccepts := (Cpp.accepts_iff _).mp (accepts_of_write (Cpp.lawful_writer formatDouble)
    ((distinct_map utf8_injective id).mpr hv) h)
  exact fun w hw => (safeNumber_map w).mp (everywhere_map.mp haccepts w hw)

theorem Java.canonical_of_accepts {v : JsonValue (List Char) D} (hv : v.Distinct)
    (h : Everywhere (fun w => w = .int Int64.minValue ∨ SafeNumber w) v) :
    (Java.toCanonicalJson javaDouble (v.map utf16 id)).map Java.getBytes = some (rfc8785 v) := by
  have hnode : ∀ w : JsonValue (List Char) D, w.map utf16 id = .int Int64.minValue ↔
      w = .int Int64.minValue := by
    intro w
    cases w <;> simp [map]
  have haccepts : Accepts (Java.writer javaDouble) (v.map utf16 id) :=
    (Java.accepts_iff _).mpr (everywhere_map.mpr fun w hw =>
      (h w hw).imp (hnode w).mpr (safeNumber_map w).mpr)
  have hwrite : Java.toCanonicalJson javaDouble (v.map utf16 id) =
      some ((canonicalScalars v).flatMap utf16Units) :=
    write_encoded (Java.lawful_writer javaDouble) (Java.encodes javaDouble) hv haccepts
  rw [hwrite, Option.map_some, Java.getBytes_flatMap (canonicalScalars_valid v)]
  rfl

theorem Java.accepts_of_canonical {v : JsonValue (List Char) D} (hv : v.Distinct)
    (h : (Java.toCanonicalJson javaDouble (v.map utf16 id)).isSome) :
    Everywhere (fun w => w = .int Int64.minValue ∨ SafeNumber w) v := by
  have haccepts := (Java.accepts_iff _).mp (accepts_of_write (Java.lawful_writer javaDouble)
    ((distinct_map utf16_injective id).mpr hv) h)
  intro w hw
  refine (everywhere_map.mp haccepts w hw).imp (fun heq => ?_) (safeNumber_map w).mp
  cases w <;> simp_all [map]

theorem Swift.canonical_of_encodable {v : JsonValue (List Char) D} (hv : v.Distinct) (h : Encodable v) :
    Swift.canonicalJSON swiftDouble v = some (canonicalScalars v) := by
  have haccepts : Accepts (Swift.writer swiftDouble) (v.map id id) := by
    rw [map_id]
    exact (Swift.accepts_iff _).mpr h
  have hwrite := write_encoded (Swift.lawful_writer swiftDouble) (Swift.encodes swiftDouble) hv
    haccepts
  rwa [map_id, List.flatMap_singleton'] at hwrite

theorem Swift.encodable_of_canonical {v : JsonValue (List Char) D} (hv : v.Distinct)
    (h : (Swift.canonicalJSON swiftDouble v).isSome) : Encodable v :=
  (Swift.accepts_iff _).mp (accepts_of_write (Swift.lawful_writer swiftDouble) hv h)

/-- The encoders refuse the values that have no canonical text, and agree on the others. -/
structure CanonicalizersAgree (v : JsonValue (List Char) D) : Prop where
  refuse : ¬ Encodable v → Cpp.toCanonicalJson formatDouble (v.map utf8 id) = none ∧
    Java.toCanonicalJson javaDouble (v.map utf16 id) = none ∧
    Swift.canonicalJSON swiftDouble v = none
  agree : Encodable v → Cpp.toCanonicalJson formatDouble (v.map utf8 id) = some (rfc8785 v) ∧
    (Java.toCanonicalJson javaDouble (v.map utf16 id)).map Java.getBytes = some (rfc8785 v) ∧
    (Swift.canonicalJSON swiftDouble v).map (fun text => text.flatMap utf8Units) = some (rfc8785 v)

/-- Java alone writes the least integer, so the encoders agree where it does not stand or does not
stand alone. -/
theorem canonicalizersAgree_iff {v : JsonValue (List Char) D} (hv : v.Distinct) :
    CanonicalizersAgree formatDouble javaDouble swiftDouble v ↔
      (.int Int64.minValue ∈ v.subvalues →
        ∃ w ∈ v.subvalues, w ≠ .int Int64.minValue ∧ ¬ SafeNumber w) := by
  have hleast : ¬ SafeNumber (.int Int64.minValue : JsonValue (List Char) D) := by
    intro h
    have := (h.2 _ rfl).1
    rw [Int64.toInt_minValue] at this
    omega
  constructor
  · intro ⟨hrefuse, _⟩ hmem
    by_contra hnone
    push Not at hnone
    have hjava := Java.canonical_of_accepts javaDouble hv fun w hw =>
      (em (w = .int Int64.minValue)).imp id (hnone w hw)
    rw [(hrefuse fun h => hleast (h _ hmem)).2.1] at hjava
    cases hjava
  · intro hcond
    refine ⟨fun h => ⟨?_, ?_, ?_⟩, fun h => ⟨?_, ?_, ?_⟩⟩
    · exact Option.not_isSome_iff_eq_none.mp fun hsome =>
        h (Cpp.encodable_of_canonical formatDouble hv hsome)
    · refine Option.not_isSome_iff_eq_none.mp fun hsome => ?_
      have hall := Java.accepts_of_canonical javaDouble hv hsome
      by_cases hmem : .int Int64.minValue ∈ v.subvalues
      · obtain ⟨w, hw, hne, hunsafe⟩ := hcond hmem
        exact (hall w hw).elim hne hunsafe
      · exact h fun w hw => (hall w hw).resolve_left fun heq => hmem (heq ▸ hw)
    · exact Option.not_isSome_iff_eq_none.mp fun hsome =>
        h (Swift.encodable_of_canonical swiftDouble hv hsome)
    · exact Cpp.canonical_of_encodable formatDouble hv h
    · exact Java.canonical_of_accepts javaDouble hv fun w hw => Or.inr (h w hw)
    · rw [Swift.canonical_of_encodable swiftDouble hv h]
      rfl

end Encoders

/-- Java writes the least integer on its own, where the other encoders refuse it. -/
theorem least_not_agree : ¬ CanonicalizersAgree (fun _ : Nat => []) (fun _ => []) (fun _ => [])
    (.arr [.int Int64.minValue]) := by
  intro ⟨hrefuse, _⟩
  have hjava : Java.toCanonicalJson (fun _ : Nat => [])
      ((.arr [.int Int64.minValue] : JsonValue (List Char) Nat).map utf16 id) =
        some (ascii "[-9223372036854775808]") := by decide +kernel
  have hunsafe : ¬ Encodable (.arr [.int Int64.minValue] : JsonValue (List Char) Nat) := by
    intro h
    have := ((h (.int Int64.minValue) (by simp [subvalues, elementSubvalues])).2 _ rfl).1
    revert this
    decide
  rw [(hrefuse hunsafe).2.1] at hjava
  cases hjava

/-- A value with a name outside the basic plane and one near its end. -/
theorem agree_astral : CanonicalizersAgree (fun _ : Nat => []) (fun _ => []) (fun _ => [])
    (.obj [(['～'], .int 9007199254740991), (['😀'], .null)]) :=
  (canonicalizersAgree_iff _ _ _
    (by simp [Everywhere, DistinctNames, subvalues, memberSubvalues])).mpr
    (fun h => absurd h (by simp [subvalues, memberSubvalues]; decide))

end Sdk

end AuruPm
