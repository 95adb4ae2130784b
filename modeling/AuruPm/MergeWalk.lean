import AuruPm.Merge

/-!
# The walk of the merge

The merge satisfies the source's recursive equation, its value does not depend on the path
it is given, and its conflicts are the clashes at the nodes it visits. Later modules argue
about `Visits` and never about the loops.
-/

namespace AuruPm

set_option autoImplicit false

open SortedAssoc Value

theorem mem_allKeys {a l r : List (String × Value)} {k : String} :
    k ∈ allKeys a l r ↔ (get? a k).isSome ∨ (get? l k).isSome ∨ (get? r k).isSome := by
  simp only [allKeys, mem_keySet, List.mem_append, get?_isSome_iff]
  exact or_assoc

/-- Every level calls itself on strictly shallower ancestors only. -/
def Agrees (rec rec' : MergeFn) (a : Value) : Prop :=
  ∀ av : Value, av.depth < a.depth → ∀ l r path, rec av l r path = rec' av l r path

section Congruence
variable {rec rec' : MergeFn}

theorem mergeObjects_congr {a l r : List (String × Value)} (h : Agrees rec rec' (.object a))
    (path : List PathStep) : mergeObjects rec a l r path = mergeObjects rec' a l r path := by
  have hfield : ∀ key, mergeField rec path key (get? a key) (get? l key) (get? r key) =
      mergeField rec' path key (get? a key) (get? l key) (get? r key) := by
    intro key
    cases ha : get? a key with
    | none => cases get? l key <;> cases get? r key <;> rfl
    | some av =>
      have hrec := h av (depth_lt_of_get? ha)
      cases get? l key <;> cases get? r key <;> simp only [mergeField, hrec]
  simp only [mergeObjects, hfield]

theorem mergeShared_congr {a l r : List Value} (h : ∀ av ∈ a, ∀ l r path, rec av l r path = rec' av l r path)
    (path : List PathStep) (seen : List String) :
    mergeShared rec l r path seen a = mergeShared rec' l r path seen a := by
  induction a generalizing seen with
  | nil => rfl
  | cons av rest ih =>
    have hav := h av List.mem_cons_self
    have hrest := ih fun x hx => h x (List.mem_cons_of_mem av hx)
    simp only [mergeShared, hav, hrest]

theorem mergeArrays_congr {a l r : List Value} (h : Agrees rec rec' (.array a))
    (path : List PathStep) : mergeArrays rec a l r path = mergeArrays rec' a l r path := by
  have hshared := mergeShared_congr (a := a) (l := l) (r := r)
    (fun av hav => h av (depth_lt_array hav)) path []
  have hindex : ∀ i : Nat, ∀ l r path,
      rec (a[i]?.getD .null) l r path = rec' (a[i]?.getD .null) l r path := by
    intro i
    apply h
    cases hi : a[i]? with
    | none => simp [depth]
    | some av => exact depth_lt_array (List.mem_of_getElem? hi)
  simp only [mergeArrays, mergeArraysById, mergeArraysByIndex, hshared, hindex]

theorem mergeNode_congr {a : Value} (h : Agrees rec rec' a) (l r : Value) (path : List PathStep) :
    mergeNode rec a l r path = mergeNode rec' a l r path := by
  cases a with
  | object a =>
    cases l with
    | object l =>
      cases r with
      | object r => simp only [mergeNode, mergeObjects_congr h]
      | _ => rfl
    | _ => rfl
  | array a =>
    cases l with
    | array l =>
      cases r with
      | array r => simp only [mergeNode, mergeArrays_congr h]
      | _ => rfl
    | _ => rfl
  | _ => rfl

end Congruence

theorem mergeNode_scalar {rec : MergeFn} {a : Value} (h : a.depth = 0) (l r : Value)
    (path : List PathStep) : mergeNode rec a l r path = mergeScalar a l r path := by
  cases a with
  | array _ => simp [depth] at h
  | object _ => simp [depth] at h
  | _ => rfl

theorem mergeToDepth_succ (n : Nat) {a : Value} (h : a.depth ≤ n) (l r : Value)
    (path : List PathStep) : mergeToDepth (n + 1) a l r path = mergeToDepth n a l r path := by
  induction n generalizing a l r path with
  | zero => exact mergeNode_scalar (Nat.le_zero.mp h) l r path
  | succ n ih =>
    apply mergeNode_congr
    intro av hav l r path
    exact ih (by omega) l r path

theorem mergeToDepth_eq {n : Nat} {a : Value} (h : a.depth ≤ n) (l r : Value)
    (path : List PathStep) : mergeToDepth n a l r path = mergeValues a l r path := by
  induction h with
  | refl => rfl
  | @step n hn ih => rw [mergeToDepth_succ n hn, ih]

/-- The recursive equation of `merge_values`. -/
theorem mergeValues_eq (a l r : Value) (path : List PathStep) :
    mergeValues a l r path = mergeNode mergeValues a l r path := by
  cases hd : a.depth with
  | zero => rw [mergeNode_scalar hd, ← mergeToDepth_eq (Nat.le_of_eq hd)]; rfl
  | succ n =>
    rw [← mergeToDepth_eq (Nat.le_of_eq hd)]
    apply mergeNode_congr
    intro av hav l r path
    exact mergeToDepth_eq (by omega) l r path

/-- The same conflict seen from further up. -/
def Conflict.under (path : List PathStep) (c : Conflict) : Conflict :=
  { c with path := path ++ c.path }

@[simp] theorem Conflict.under_nil (c : Conflict) : c.under [] = c := rfl

@[simp] theorem Conflict.under_under (p q : List PathStep) (c : Conflict) :
    (c.under q).under p = c.under (p ++ q) := by simp [Conflict.under]

/-- The call's value does not depend on the path, and the path only prefixes its conflicts. -/
def PathUniform (rec : MergeFn) (a : Value) : Prop :=
  ∀ l r path, rec a l r path =
    ((rec a l r []).1, (rec a l r []).2.map (Conflict.under path))

section Uniform
variable {rec : MergeFn}

theorem PathUniform.snoc {a : Value} (h : PathUniform rec a) (l r : Value)
    (path : List PathStep) (step : PathStep) :
    rec a l r (path ++ [step]) =
      ((rec a l r [step]).1, (rec a l r [step]).2.map (Conflict.under path)) := by
  rw [h l r (path ++ [step]), h l r [step]]
  simp [Function.comp_def]

theorem mergeScalar_uniform (a l r : Value) (path : List PathStep) :
    mergeScalar a l r path =
      ((mergeScalar a l r []).1, (mergeScalar a l r []).2.map (Conflict.under path)) := by
  unfold mergeScalar
  split
  · rfl
  · rfl
  · rfl
  · split <;> simp [Conflict.under]

theorem mergeField_uniform {a l r : Option Value} (h : ∀ av, a = some av → PathUniform rec av)
    (path : List PathStep) (key : String) :
    mergeField rec path key a l r =
      ((mergeField rec [] key a l r).1,
       (mergeField rec [] key a l r).2.map (Conflict.under path)) := by
  cases a with
  | none =>
    cases l with
    | none => cases r <;> rfl
    | some lv =>
      cases r with
      | none => rfl
      | some rv =>
        simp only [mergeField]
        split <;> simp [Conflict.under]
  | some av =>
    have hav := (h av rfl).snoc
    cases l with
    | none =>
      cases r with
      | none => rfl
      | some rv => simp only [mergeField]; split <;> rfl
    | some lv =>
      cases r with
      | none => simp only [mergeField]; split <;> rfl
      | some rv =>
        simp only [mergeField, hav lv rv path (.key key), List.nil_append]
        split <;> rfl

theorem mergeObjects_uniform {a l r : List (String × Value)}
    (h : ∀ k av, get? a k = some av → PathUniform rec av) (path : List PathStep) :
    mergeObjects rec a l r path =
      ((mergeObjects rec a l r []).1,
       (mergeObjects rec a l r []).2.map (Conflict.under path)) := by
  have hfield := fun key => mergeField_uniform (l := get? l key) (r := get? r key)
    (h key) path key
  simp only [mergeObjects, List.map_flatMap]
  refine Prod.ext ?_ ?_
  · exact congrArg (ofKeys _) (funext fun key => by rw [hfield key])
  · exact congrArg (List.flatMap · _) (funext fun key => by rw [hfield key])

theorem mergeShared_uniform {a : List Value} (h : ∀ av ∈ a, PathUniform rec av)
    (l r : List Value) (path : List PathStep) (seen : List String) :
    mergeShared rec l r path seen a =
      ((mergeShared rec l r [] seen a).1,
       (mergeShared rec l r [] seen a).2.map (Conflict.under path)) := by
  induction a generalizing seen with
  | nil => rfl
  | cons av rest ih =>
    have hav := (h av List.mem_cons_self).snoc
    have hrest := ih fun x hx => h x (List.mem_cons_of_mem av hx)
    simp only [mergeShared, List.nil_append]
    rw [hrest (seen ++ [idOf av])]
    split
    · rfl
    · split <;> rfl
    · split <;> rfl
    · rename_i lv rv _ _
      rw [hav lv rv path]
      simp

theorem mergeArrays_uniform {a : List Value} (h : ∀ av ∈ a, PathUniform rec av)
    (hnull : PathUniform rec .null) (l r : List Value) (path : List PathStep) :
    mergeArrays rec a l r path =
      ((mergeArrays rec a l r []).1, (mergeArrays rec a l r []).2.map (Conflict.under path)) := by
  unfold mergeArrays
  split
  · unfold mergeArraysById
    rw [mergeShared_uniform h l r path []]
  · have hindex : ∀ i : Nat, PathUniform rec (a[i]?.getD .null) := by
      intro i
      cases hi : a[i]? with
      | none => exact hnull
      | some av => exact h av (List.mem_of_getElem? hi)
    simp only [mergeArraysByIndex, List.map_flatMap, List.nil_append]
    refine Prod.ext ?_ ?_
    · refine congrArg Value.array (congrArg (List.map · _) (funext fun i => ?_))
      rw [(hindex i).snoc]
    · refine congrArg (List.flatMap · _) (funext fun i => ?_)
      rw [(hindex i).snoc]

end Uniform

theorem mergeValues_uniform (a : Value) : PathUniform mergeValues a := by
  have hnull : PathUniform mergeValues .null := fun l r path => mergeScalar_uniform .null l r path
  induction a using Value.induct with
  | null => exact hnull
  | bool b => exact fun l r path => mergeScalar_uniform (.bool b) l r path
  | number n => exact fun l r path => mergeScalar_uniform (.number n) l r path
  | string s => exact fun l r path => mergeScalar_uniform (.string s) l r path
  | array xs ih =>
    intro l r path
    rw [mergeValues_eq _ _ _ path, mergeValues_eq _ _ _ []]
    cases l with
    | array l =>
      cases r with
      | array r => exact mergeArrays_uniform ih hnull l r path
      | _ => exact mergeScalar_uniform _ _ _ path
    | _ => exact mergeScalar_uniform _ _ _ path
  | object fs ih =>
    intro l r path
    rw [mergeValues_eq _ _ _ path, mergeValues_eq _ _ _ []]
    cases l with
    | object l =>
      cases r with
      | object r =>
        simp only [mergeNode]
        rw [mergeObjects_uniform (fun k av hk => ih (k, av) (mem_of_get? hk)) path]
      | _ => exact mergeScalar_uniform _ _ _ path
    | _ => exact mergeScalar_uniform _ _ _ path

/-- The value of the merge. -/
def merged (a l r : Value) : Value := (mergeValues a l r []).1

/-- The conflicts of the merge, with paths from these three values. -/
def clashes (a l r : Value) : List Conflict := (mergeValues a l r []).2

theorem mergeValues_split (a l r : Value) (path : List PathStep) :
    mergeValues a l r path = (merged a l r, (clashes a l r).map (Conflict.under path)) :=
  mergeValues_uniform a l r path

theorem merge3_eq (a l r : Value) :
    merge3 a l r = if clashes a l r = [] then .clean (merged a l r)
      else .conflict (merged a l r) ((clashes a l r).map Conflict.field) := by
  by_cases h : clashes a l r = []
  · rw [if_pos h]
    have hempty : (mergeValues a l r []).2.isEmpty = true := by simpa [clashes] using h
    simp only [merge3, hempty, if_true, merged]
  · rw [if_neg h]
    have hempty : (mergeValues a l r []).2.isEmpty = false := by simpa [clashes] using h
    simp only [merge3, hempty, merged, clashes, Bool.false_eq_true, if_false]

theorem merge3_clean_iff {a l r m : Value} :
    merge3 a l r = .clean m ↔ clashes a l r = [] ∧ m = merged a l r := by
  rw [merge3_eq]
  split
  · rename_i h
    simp [h, eq_comm]
  · rename_i h
    simp [h]

theorem merge3_conflict_iff {a l r base : Value} {cs : List ConflictedField} :
    merge3 a l r = .conflict base cs ↔
      clashes a l r ≠ [] ∧ base = merged a l r ∧ cs = (clashes a l r).map Conflict.field := by
  rw [merge3_eq]
  split
  · rename_i h
    simp [h]
  · rename_i h
    simp [h, eq_comm]

/-! The equations of `merged` and `clashes`, one group for each kind of node. -/

/-- What one key, present or not on each side, becomes. -/
def mergedAt (a l r : Option Value) : Option Value := (mergeField mergeValues [] "" a l r).1

@[simp] theorem mergedAt_left (a l : Option Value) : mergedAt a l a = l := by
  cases a <;> cases l <;> simp only [mergedAt, mergeField]
  · rename_i av
    simp
  · rename_i av lv
    by_cases h : lv = av <;> simp [h]

@[simp] theorem mergedAt_right (a r : Option Value) : mergedAt a a r = r := by
  cases a <;> cases r <;> simp only [mergedAt, mergeField]
  · rename_i av
    simp
  · rename_i av rv
    by_cases h : rv = av <;> simp [h]

theorem mergedAt_changed {av lv rv : Value} (hl : lv ≠ av) (hr : rv ≠ av) :
    mergedAt (some av) (some lv) (some rv) = some (merged av lv rv) := by
  simp [mergedAt, mergeField, hl, hr, mergeValues_split av lv rv]

theorem mergedAt_local_deleted {av rv : Value} (hr : rv ≠ av) :
    mergedAt (some av) none (some rv) = some rv := by
  simp [mergedAt, mergeField, hr]

theorem mergedAt_remote_deleted {av lv : Value} (hl : lv ≠ av) :
    mergedAt (some av) (some lv) none = some lv := by
  simp [mergedAt, mergeField, hl]

@[simp] theorem mergedAt_deleted (a : Option Value) : mergedAt a none none = none := by
  cases a <;> rfl

@[simp] theorem mergedAt_added (lv rv : Value) :
    mergedAt none (some lv) (some rv) = some lv := by
  simp only [mergedAt, mergeField]
  split <;> rfl

def mergedFields (a l r : List (String × Value)) : List (String × Value) :=
  ofKeys (allKeys a l r) fun k => mergedAt (get? a k) (get? l k) (get? r k)

theorem mergeField_fst (path : List PathStep) (key : String) (a l r : Option Value) :
    (mergeField mergeValues path key a l r).1 = mergedAt a l r := by
  cases a <;> cases l <;> cases r <;> try rfl
  · simp only [mergeField, mergedAt]
    split <;> rfl
  · simp only [mergeField, mergedAt]
    rw [mergeValues_split _ _ _ (path ++ _), mergeValues_split _ _ _ ([] ++ _)]
    rename_i av lv rv
    cases decide (lv ≠ av) <;> cases decide (rv ≠ av) <;> rfl

theorem merged_object (a l r : List (String × Value)) :
    merged (.object a) (.object l) (.object r) = .object (mergedFields a l r) := by
  rw [merged, mergeValues_eq]
  simp only [mergeNode, mergeObjects, mergeField_fst]
  rfl

@[simp] theorem get?_mergedFields (a l r : List (String × Value)) (k : String) :
    get? (mergedFields a l r) k = mergedAt (get? a k) (get? l k) (get? r k) := by
  rw [mergedFields, get?_ofKeys]
  split
  · rfl
  · rename_i h
    simp only [mem_allKeys, not_or, Option.not_isSome_iff_eq_none] at h
    simp [h.1, h.2.1, h.2.2]

theorem sorted_mergedFields (a l r : List (String × Value)) : Sorted (mergedFields a l r) :=
  sorted_ofKeys (pairwise_keySet _) _

/-- The conflicts of one key. -/
theorem mem_mergeField_snd {key : String} {a l r : Option Value} {c : Conflict} :
    c ∈ (mergeField mergeValues [] key a l r).2 ↔
      (∃ av lv rv d, a = some av ∧ l = some lv ∧ r = some rv ∧ lv ≠ av ∧ rv ≠ av ∧
        d ∈ clashes av lv rv ∧ c = d.under [.key key]) ∨
      (∃ lv rv, a = none ∧ l = some lv ∧ r = some rv ∧ lv ≠ rv ∧
        c = ⟨[.key key], none, some lv, some rv⟩) := by
  cases a with
  | none =>
    cases l <;> cases r <;> simp only [mergeField, reduceCtorEq, false_and, exists_false,
      and_false, false_or, List.not_mem_nil]
    rename_i lv rv
    by_cases h : lv = rv
    · simp [h]
    · simp [h]
  | some av =>
    cases l <;> cases r <;> simp only [mergeField, reduceCtorEq, false_and, exists_false,
      and_false, or_false, List.not_mem_nil]
    · split <;> simp
    · split <;> simp
    · rename_i lv rv
      by_cases hl : lv = av
      · by_cases hr : rv = av <;> simp [hl, hr]
      · by_cases hr : rv = av
        · simp [hl, hr]
        · simp only [hl, hr, ne_eq, not_false_eq_true, decide_true, List.nil_append,
            mergeValues_split av lv rv, List.mem_map]
          constructor
          · rintro ⟨d, hd, rfl⟩
            exact ⟨av, lv, rv, d, rfl, rfl, rfl, hl, hr, hd, rfl⟩
          · rintro ⟨_, _, _, d, ⟨⟩, ⟨⟩, ⟨⟩, _, _, hd, rfl⟩
            exact ⟨d, hd, rfl⟩

theorem mem_clashes_object {a l r : List (String × Value)} {c : Conflict} :
    c ∈ clashes (.object a) (.object l) (.object r) ↔
      ∃ k, c ∈ (mergeField mergeValues [] k (get? a k) (get? l k) (get? r k)).2 := by
  rw [clashes, mergeValues_eq]
  simp only [mergeNode, mergeObjects, List.mem_flatMap]
  constructor
  · rintro ⟨k, _, hk⟩
    exact ⟨k, hk⟩
  · rintro ⟨k, hk⟩
    refine ⟨k, ?_, hk⟩
    rw [mem_allKeys]
    rcases mem_mergeField_snd.mp hk with ⟨av, _, _, _, ha, _⟩ | ⟨lv, _, _, hl, _⟩
    · simp [ha]
    · simp [hl]

/-- What becomes of an ancestor element, found or not by its id on each side. -/
def mergedElement (av : Value) : Option Value → Option Value → Option Value
  | none, none => none
  | some lv, none => if lv = av then none else some lv
  | none, some rv => if rv = av then none else some rv
  | some lv, some rv => some (merged av lv rv)

theorem mergeShared_fst (a l r : List Value) (path : List PathStep) (seen : List String) :
    (mergeShared mergeValues l r path seen a).1 =
      a.filterMap fun av => mergedElement av (byId l (idOf av)) (byId r (idOf av)) := by
  induction a generalizing seen with
  | nil => rfl
  | cons av rest ih =>
    have hrest := ih (seen ++ [idOf av])
    simp only [mergeShared, List.filterMap_cons]
    cases byId l (idOf av) with
    | none =>
      cases byId r (idOf av) with
      | none => simpa only [mergedElement] using hrest
      | some rv =>
        by_cases h : rv = av
        · simpa [mergedElement, h] using hrest
        · simpa [mergedElement, h] using hrest
    | some lv =>
      cases byId r (idOf av) with
      | none =>
        by_cases h : lv = av
        · simpa [mergedElement, h] using hrest
        · simpa [mergedElement, h] using hrest
      | some rv =>
        simp only [mergedElement, hrest]
        rw [mergeValues_split]

theorem mem_mergeShared_snd {a l r : List Value} {seen : List String} {c : Conflict} :
    c ∈ (mergeShared mergeValues l r [] seen a).2 ↔
      ∃ before av after lv rv d, a = before ++ av :: after ∧
        byId l (idOf av) = some lv ∧ byId r (idOf av) = some rv ∧ d ∈ clashes av lv rv ∧
        c = d.under [.element (idOf av) ((seen ++ before.map idOf).count (idOf av))] := by
  induction a generalizing seen with
  | nil => simp [mergeShared]
  | cons av rest ih =>
    have hsplit : c ∈ (mergeShared mergeValues l r [] seen (av :: rest)).2 ↔
        (∃ lv rv d, byId l (idOf av) = some lv ∧ byId r (idOf av) = some rv ∧
          d ∈ clashes av lv rv ∧ c = d.under [.element (idOf av) (seen.count (idOf av))]) ∨
        c ∈ (mergeShared mergeValues l r [] (seen ++ [idOf av]) rest).2 := by
      simp only [mergeShared]
      cases byId l (idOf av) with
      | none => cases byId r (idOf av) <;> simp only [reduceCtorEq, false_and, exists_false, false_or]; split <;> rfl
      | some lv =>
        cases byId r (idOf av) with
        | none =>
          simp only [reduceCtorEq, false_and, and_false, exists_false, false_or]
          split <;> rfl
        | some rv =>
          simp only [mergeValues_split av lv rv, List.mem_append, List.mem_map, List.nil_append,
            Option.some.injEq, exists_and_left, exists_eq_left', eq_comm]
    rw [hsplit, ih]
    constructor
    · rintro (⟨lv, rv, d, hl, hr, hd, rfl⟩ | ⟨before, av', after, lv, rv, d, rfl, hl, hr, hd, rfl⟩)
      · exact ⟨[], av, rest, lv, rv, d, rfl, hl, hr, hd, by simp⟩
      · exact ⟨av :: before, av', after, lv, rv, d, rfl, hl, hr, hd, by simp⟩
    · rintro ⟨before, av', after, lv, rv, d, heq, hl, hr, hd, rfl⟩
      cases before with
      | nil =>
        cases heq
        exact Or.inl ⟨lv, rv, d, hl, hr, hd, by simp⟩
      | cons b before =>
        cases heq
        exact Or.inr ⟨before, av', after, lv, rv, d, rfl, hl, hr, hd, by simp⟩

/-- All elements of the three arrays carry a string id. -/
def idKeyed (a l r : List Value) : Bool := allHaveId a && allHaveId l && allHaveId r

def additions (a l r : List Value) : List Value :=
  (l.filter fun lv => (byId a (idOf lv)).isNone) ++
    r.filter fun rv => (byId a (idOf rv)).isNone && (byId l (idOf rv)).isNone

theorem merged_elements {a l r : List Value} (h : idKeyed a l r = true) :
    merged (.array a) (.array l) (.array r) =
      .array ((a.filterMap fun av => mergedElement av (byId l (idOf av)) (byId r (idOf av))) ++
        additions a l r) := by
  rw [merged, mergeValues_eq]
  simp only [idKeyed] at h
  simp only [mergeNode, mergeArrays, h, if_true, mergeArraysById, mergeShared_fst, additions,
    List.append_assoc]

theorem mem_clashes_elements {a l r : List Value} (h : idKeyed a l r = true) {c : Conflict} :
    c ∈ clashes (.array a) (.array l) (.array r) ↔
      ∃ before av after lv rv d, a = before ++ av :: after ∧
        byId l (idOf av) = some lv ∧ byId r (idOf av) = some rv ∧ d ∈ clashes av lv rv ∧
        c = d.under [.element (idOf av) ((before.map idOf).count (idOf av))] := by
  rw [clashes, mergeValues_eq]
  simp only [idKeyed] at h
  simp only [mergeNode, mergeArrays, h, if_true, mergeArraysById]
  rw [mem_mergeShared_snd]
  simp only [List.nil_append]

def paddedLength (a l r : List Value) : Nat := max (max a.length l.length) r.length

/-- Element of a positional array; past its end the merge reads null. -/
def padded (arr : List Value) (i : Nat) : Value := arr[i]?.getD .null

theorem merged_indices {a l r : List Value} (h : idKeyed a l r = false) :
    merged (.array a) (.array l) (.array r) =
      .array ((List.range (paddedLength a l r)).map fun i =>
        merged (padded a i) (padded l i) (padded r i)) := by
  rw [merged, mergeValues_eq]
  simp only [idKeyed] at h
  simp only [mergeNode, mergeArrays, h, Bool.false_eq_true, if_false, mergeArraysByIndex]
  refine congrArg Value.array (congrArg (List.map · _) (funext fun i => ?_))
  rw [mergeValues_split]
  rfl

theorem mem_clashes_indices {a l r : List Value} (h : idKeyed a l r = false) {c : Conflict} :
    c ∈ clashes (.array a) (.array l) (.array r) ↔
      ∃ i d, i < paddedLength a l r ∧ d ∈ clashes (padded a i) (padded l i) (padded r i) ∧
        c = d.under [.index i] := by
  rw [clashes, mergeValues_eq]
  simp only [idKeyed] at h
  simp only [mergeNode, mergeArrays, h, Bool.false_eq_true, if_false, mergeArraysByIndex,
    List.mem_flatMap, List.mem_range]
  constructor
  · rintro ⟨i, hi, hc⟩
    rw [mergeValues_split] at hc
    obtain ⟨d, hd, rfl⟩ := List.mem_map.mp hc
    exact ⟨i, d, hi, hd, rfl⟩
  · rintro ⟨i, d, hi, hd, rfl⟩
    refine ⟨i, hi, ?_⟩
    rw [mergeValues_split]
    exact List.mem_map_of_mem hd

/-- The three values are merged as one scalar. -/
def IsLeaf (a l r : Value) : Prop :=
  ¬(a.isObject = true ∧ l.isObject = true ∧ r.isObject = true) ∧
    ¬(a.isArray = true ∧ l.isArray = true ∧ r.isArray = true)

instance (a l r : Value) : Decidable (IsLeaf a l r) := by unfold IsLeaf; infer_instance

theorem isObject_iff {v : Value} : v.isObject = true ↔ ∃ fs, v = .object fs := by
  cases v <;> simp [isObject]

theorem isArray_iff {v : Value} : v.isArray = true ↔ ∃ xs, v = .array xs := by
  cases v <;> simp [isArray]

theorem arrays_of_not_leaf {xs : List Value} {l r : Value} (h : ¬IsLeaf (.array xs) l r) :
    ∃ ls rs, l = .array ls ∧ r = .array rs := by
  simp only [IsLeaf, isObject, Bool.false_eq_true, false_and, not_false_eq_true, true_and,
    not_not, isArray_iff] at h
  obtain ⟨_, ⟨ls, hl⟩, rs, hr⟩ := h
  exact ⟨ls, rs, hl, hr⟩

theorem objects_of_not_leaf {fs : List (String × Value)} {l r : Value}
    (h : ¬IsLeaf (.object fs) l r) : ∃ ls rs, l = .object ls ∧ r = .object rs := by
  simp only [IsLeaf, isArray, Bool.false_eq_true, false_and, not_false_eq_true, and_true,
    not_not, isObject_iff] at h
  obtain ⟨_, ⟨ls, hl⟩, rs, hr⟩ := h
  exact ⟨ls, rs, hl, hr⟩

theorem mergeValues_leaf {a l r : Value} (h : IsLeaf a l r) (path : List PathStep) :
    mergeValues a l r path = mergeScalar a l r path := by
  rw [mergeValues_eq]
  unfold mergeNode
  split
  · exact absurd ⟨rfl, rfl, rfl⟩ h.1
  · exact absurd ⟨rfl, rfl, rfl⟩ h.2
  · rfl

theorem merged_leaf {a l r : Value} (h : IsLeaf a l r) :
    merged a l r = if l = a then r else l := by
  rw [merged, mergeValues_leaf h]
  by_cases hl : l = a <;> by_cases hr : r = a <;> simp [mergeScalar, hl, hr]
  split <;> rfl

theorem clashes_leaf {a l r : Value} (h : IsLeaf a l r) :
    clashes a l r =
      if l ≠ a ∧ r ≠ a ∧ l ≠ r then [⟨[], some a, some l, some r⟩] else [] := by
  rw [clashes, mergeValues_leaf h]
  by_cases hl : l = a <;> by_cases hr : r = a <;> by_cases hlr : l = r <;>
    simp [mergeScalar, hl, hr, hlr]

/-- `merge_values` is called on these three values at this path below the first three. -/
inductive Visits : Value → Value → Value → List PathStep → Value → Value → Value → Prop
  | here (a l r : Value) : Visits a l r [] a l r
  | field {a l r : List (String × Value)} {k : String} {av lv rv a' l' r' : Value}
      {path : List PathStep} (ha : get? a k = some av) (hl : get? l k = some lv)
      (hr : get? r k = some rv) (hlc : lv ≠ av) (hrc : rv ≠ av)
      (rest : Visits av lv rv path a' l' r') :
      Visits (.object a) (.object l) (.object r) (.key k :: path) a' l' r'
  | element {l r before after : List Value} {av lv rv a' l' r' : Value} {path : List PathStep}
      (hid : idKeyed (before ++ av :: after) l r = true)
      (hl : byId l (idOf av) = some lv) (hr : byId r (idOf av) = some rv)
      (rest : Visits av lv rv path a' l' r') :
      Visits (.array (before ++ av :: after)) (.array l) (.array r)
        (.element (idOf av) ((before.map idOf).count (idOf av)) :: path) a' l' r'
  | index {a l r : List Value} {i : Nat} {a' l' r' : Value} {path : List PathStep}
      (hid : idKeyed a l r = false) (hi : i < paddedLength a l r)
      (rest : Visits (padded a i) (padded l i) (padded r i) path a' l' r') :
      Visits (.array a) (.array l) (.array r) (.index i :: path) a' l' r'

/-- A conflict that a visited node itself reports. -/
inductive NodeClash : Value → Value → Value → Conflict → Prop
  | leaf {a l r : Value} (h : IsLeaf a l r) (hl : l ≠ a) (hr : r ≠ a) (hlr : l ≠ r) :
      NodeClash a l r ⟨[], some a, some l, some r⟩
  | added {a l r : List (String × Value)} {k : String} {lv rv : Value} (ha : get? a k = none)
      (hl : get? l k = some lv) (hr : get? r k = some rv) (hlr : lv ≠ rv) :
      NodeClash (.object a) (.object l) (.object r) ⟨[.key k], none, some lv, some rv⟩

theorem NodeClash.mem_clashes {a l r : Value} {d : Conflict} (h : NodeClash a l r d) :
    d ∈ clashes a l r := by
  cases h with
  | leaf h hl hr hlr => simp [clashes_leaf h, hl, hr, hlr]
  | added ha hl hr hlr =>
    exact mem_clashes_object.mpr ⟨_, mem_mergeField_snd.mpr
      (Or.inr ⟨_, _, ha, hl, hr, hlr, rfl⟩)⟩

theorem Visits.mem_clashes {a l r a' l' r' : Value} {path : List PathStep}
    (h : Visits a l r path a' l' r') {d : Conflict} (hd : d ∈ clashes a' l' r') :
    d.under path ∈ clashes a l r := by
  induction h with
  | here => exact hd
  | @field _ _ _ k _ _ _ _ _ _ path ha hl hr hlc hrc _ ih =>
    refine mem_clashes_object.mpr ⟨k, mem_mergeField_snd.mpr (Or.inl ?_)⟩
    exact ⟨_, _, _, _, ha, hl, hr, hlc, hrc, ih hd, (Conflict.under_under [_] path d).symm⟩
  | @element _ _ before after av _ _ _ _ _ path hid hl hr _ ih =>
    refine (mem_clashes_elements hid).mpr ?_
    exact ⟨before, av, after, _, _, _, rfl, hl, hr, ih hd, (Conflict.under_under [_] path d).symm⟩
  | @index _ _ _ i _ _ _ path hid hi _ ih =>
    refine (mem_clashes_indices hid).mpr ?_
    exact ⟨i, _, hi, ih hd, (Conflict.under_under [_] path d).symm⟩

theorem leaf_clash {a l r : Value} (h : IsLeaf a l r) {c : Conflict} (hc : c ∈ clashes a l r) :
    NodeClash a l r c := by
  rw [clashes_leaf h] at hc
  split at hc
  · rename_i hne
    rw [List.mem_singleton.mp hc]
    exact .leaf h hne.1 hne.2.1 hne.2.2
  · simp at hc

theorem exists_visit {a l r : Value} {c : Conflict} (hc : c ∈ clashes a l r) :
    ∃ path a' l' r' d, Visits a l r path a' l' r' ∧ NodeClash a' l' r' d ∧ c = d.under path := by
  have atLeaf : ∀ {a l r : Value} {c : Conflict}, IsLeaf a l r → c ∈ clashes a l r →
      ∃ path a' l' r' d, Visits a l r path a' l' r' ∧ NodeClash a' l' r' d ∧ c = d.under path :=
    fun h hc => ⟨[], _, _, _, _, .here _ _ _, leaf_clash h hc, rfl⟩
  induction a using Value.induct generalizing l r c with
  | null => exact atLeaf (by simp [IsLeaf, isObject, isArray]) hc
  | bool => exact atLeaf (by simp [IsLeaf, isObject, isArray]) hc
  | number => exact atLeaf (by simp [IsLeaf, isObject, isArray]) hc
  | string => exact atLeaf (by simp [IsLeaf, isObject, isArray]) hc
  | array xs ih =>
    by_cases hleaf : IsLeaf (.array xs) l r
    · exact atLeaf hleaf hc
    obtain ⟨l, r, rfl, rfl⟩ := arrays_of_not_leaf hleaf
    cases hid : idKeyed xs l r with
    | true =>
      obtain ⟨before, av, after, lv, rv, d, rfl, hl, hr, hd, rfl⟩ := (mem_clashes_elements hid).mp hc
      obtain ⟨path, a', l', r', e, hv, he, rfl⟩ := ih av (by simp) hd
      exact ⟨_, a', l', r', e, .element hid hl hr hv, he, by simp⟩
    | false =>
      obtain ⟨i, d, hi, hd, rfl⟩ := (mem_clashes_indices hid).mp hc
      have hrec : ∃ path a' l' r' e, Visits (padded xs i) (padded l i) (padded r i) path a' l' r' ∧
          NodeClash a' l' r' e ∧ d = e.under path := by
        cases hx : xs[i]? with
        | none =>
          have hnull : padded xs i = .null := by simp [padded, hx]
          rw [hnull] at hd ⊢
          exact atLeaf (by simp [IsLeaf, isObject, isArray]) hd
        | some x =>
          have hsome : padded xs i = x := by simp [padded, hx]
          rw [hsome] at hd ⊢
          exact ih x (List.mem_of_getElem? hx) hd
      obtain ⟨path, a', l', r', e, hv, he, rfl⟩ := hrec
      exact ⟨_, a', l', r', e, .index hid hi hv, he, by simp⟩
  | object fs ih =>
    by_cases hleaf : IsLeaf (.object fs) l r
    · exact atLeaf hleaf hc
    obtain ⟨l, r, rfl, rfl⟩ := objects_of_not_leaf hleaf
    obtain ⟨k, hk⟩ := mem_clashes_object.mp hc
    rcases mem_mergeField_snd.mp hk with
      ⟨av, lv, rv, d, ha, hl, hr, hlc, hrc, hd, rfl⟩ | ⟨lv, rv, ha, hl, hr, hlr, rfl⟩
    · obtain ⟨path, a', l', r', e, hv, he, rfl⟩ := ih (k, av) (mem_of_get? ha) hd
      exact ⟨_, a', l', r', e, .field ha hl hr hlc hrc hv, he, by simp⟩
    · exact ⟨[], _, _, _, _, .here _ _ _, .added ha hl hr hlr, rfl⟩

/-- The conflicts are exactly the clashes at the nodes of the walk. -/
theorem mem_clashes_iff {a l r : Value} {c : Conflict} :
    c ∈ clashes a l r ↔ ∃ path a' l' r' d,
      Visits a l r path a' l' r' ∧ NodeClash a' l' r' d ∧ c = d.under path := by
  constructor
  · exact exists_visit
  · rintro ⟨path, a', l', r', d, hv, hd, rfl⟩
    exact hv.mem_clashes hd.mem_clashes

end AuruPm
