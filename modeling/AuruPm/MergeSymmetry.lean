import AuruPm.MergeWalk
import Mathlib.Data.List.Sort

/-!
# The two sides of a merge

Naming the sides the other way merges cleanly exactly when naming them this way does, and gives
the same conflicts in the same order with the two sides exchanged. Only values that are kept on a
conflict favour the local side.
-/

namespace AuruPm

set_option autoImplicit false

open SortedAssoc Value

def Conflict.swap (c : Conflict) : Conflict :=
  { c with localValue := c.remote, remote := c.localValue }

def ConflictedField.swap (c : ConflictedField) : ConflictedField :=
  { c with localValue := c.remote, remote := c.localValue }

/-- The conflicts that an outcome lists. -/
def MergeOutcome.conflicts : MergeOutcome → List ConflictedField
  | .clean _ => []
  | .conflict _ conflicts => conflicts

/-- The call reports the same conflicts from either side. -/
def Symmetric (rec : MergeFn) (a : Value) : Prop :=
  ∀ l r path, (rec a r l path).2 = (rec a l r path).2.map Conflict.swap

section Sides
variable {rec : MergeFn}

theorem mergeScalar_symmetric (a : Value) : Symmetric mergeScalar a := by
  intro l r path
  by_cases hl : l = a
  · by_cases hr : r = a <;> simp [mergeScalar, hl, hr]
  · by_cases hr : r = a
    · simp [mergeScalar, hl, hr]
    · by_cases hlr : l = r
      · subst hlr
        simp [mergeScalar, hl]
      · simp [mergeScalar, hl, hr, hlr, Ne.symm hlr, Conflict.swap]

theorem mergeField_symmetric {a : Option Value} (h : ∀ av, a = some av → Symmetric rec av)
    (path : List PathStep) (key : String) (l r : Option Value) :
    (mergeField rec path key a r l).2 = (mergeField rec path key a l r).2.map Conflict.swap := by
  cases a with
  | none =>
    cases l with
    | none => cases r <;> rfl
    | some lv =>
      cases r with
      | none => rfl
      | some rv =>
        by_cases hlr : lv = rv
        · simp [mergeField, hlr]
        · simp [mergeField, hlr, Ne.symm hlr, Conflict.swap]
  | some av =>
    have hav := h av rfl
    cases l with
    | none =>
      cases r with
      | none => rfl
      | some rv =>
        simp only [mergeField]
        split <;> rfl
    | some lv =>
      cases r with
      | none =>
        simp only [mergeField]
        split <;> rfl
      | some rv =>
        by_cases hl : lv = av
        · by_cases hr : rv = av <;> simp [mergeField, hl, hr]
        · by_cases hr : rv = av
          · simp [mergeField, hl, hr]
          · simp [mergeField, hl, hr, hav lv rv]

theorem allKeys_swap (a l r : List (String × Value)) : allKeys a r l = allKeys a l r := by
  apply (pairwise_keySet _).eq_of_mem_iff (pairwise_keySet _)
  intro key
  change key ∈ allKeys a r l ↔ key ∈ allKeys a l r
  rw [mem_allKeys, mem_allKeys]
  exact or_congr_right or_comm

theorem mergeObjects_symmetric {a : List (String × Value)}
    (h : ∀ k av, get? a k = some av → Symmetric rec av) (l r : List (String × Value))
    (path : List PathStep) :
    (mergeObjects rec a r l path).2 = (mergeObjects rec a l r path).2.map Conflict.swap := by
  simp only [mergeObjects, allKeys_swap a l r, List.map_flatMap]
  apply congrArg (List.flatMap · _)
  funext key
  exact mergeField_symmetric (h key) path key _ _

theorem mergeShared_symmetric {a : List Value} (h : ∀ av ∈ a, Symmetric rec av) (l r : List Value)
    (path : List PathStep) (seen : List String) :
    (mergeShared rec r l path seen a).2 =
      (mergeShared rec l r path seen a).2.map Conflict.swap := by
  induction a generalizing seen with
  | nil => rfl
  | cons av rest ih =>
    have hav := h av List.mem_cons_self
    have hrest := ih (fun x hx => h x (List.mem_cons_of_mem av hx)) (seen ++ [idOf av])
    simp only [mergeShared]
    cases byId l (idOf av) with
    | none =>
      cases byId r (idOf av) with
      | none => exact hrest
      | some rv =>
        simp only
        split <;> exact hrest
    | some lv =>
      cases byId r (idOf av) with
      | none =>
        simp only
        split <;> exact hrest
      | some rv =>
        simp only [List.map_append]
        rw [hav lv rv, hrest]

theorem mergeArrays_symmetric {a : List Value} (h : ∀ av ∈ a, Symmetric rec av)
    (hnull : Symmetric rec .null) (l r : List Value) (path : List PathStep) :
    (mergeArrays rec a r l path).2 = (mergeArrays rec a l r path).2.map Conflict.swap := by
  have hids : (allHaveId a && allHaveId r && allHaveId l) =
      (allHaveId a && allHaveId l && allHaveId r) := Bool.and_right_comm _ _ _
  unfold mergeArrays
  rw [hids]
  split
  · exact mergeShared_symmetric h l r path []
  · have hindex : ∀ i : Nat, Symmetric rec (a[i]?.getD .null) := by
      intro i
      cases hi : a[i]? with
      | none => exact hnull
      | some av => exact h av (List.mem_of_getElem? hi)
    have hlen : max (max a.length r.length) l.length = max (max a.length l.length) r.length :=
      max_right_comm _ _ _
    simp only [mergeArraysByIndex, hlen, List.map_flatMap]
    apply congrArg (List.flatMap · _)
    funext i
    exact hindex i _ _ _

end Sides

theorem mergeValues_symmetric (a : Value) : Symmetric mergeValues a := by
  have hnull : Symmetric mergeValues .null := fun l r path => mergeScalar_symmetric .null l r path
  induction a using Value.induct with
  | null => exact hnull
  | bool b => exact fun l r path => mergeScalar_symmetric (.bool b) l r path
  | number n => exact fun l r path => mergeScalar_symmetric (.number n) l r path
  | string s => exact fun l r path => mergeScalar_symmetric (.string s) l r path
  | array xs ih =>
    intro l r path
    rw [mergeValues_eq _ r l path, mergeValues_eq _ l r path]
    cases l with
    | array l =>
      cases r with
      | array r => exact mergeArrays_symmetric ih hnull l r path
      | _ => exact mergeScalar_symmetric _ _ _ path
    | _ => cases r <;> exact mergeScalar_symmetric _ _ _ path
  | object fs ih =>
    intro l r path
    rw [mergeValues_eq _ r l path, mergeValues_eq _ l r path]
    cases l with
    | object l =>
      cases r with
      | object r =>
        exact mergeObjects_symmetric (fun k av hk => ih (k, av) (mem_of_get? hk)) l r path
      | _ => exact mergeScalar_symmetric _ _ _ path
    | _ => cases r <;> exact mergeScalar_symmetric _ _ _ path

theorem clashes_swap (a l r : Value) : clashes a r l = (clashes a l r).map Conflict.swap :=
  mergeValues_symmetric a l r []

theorem conflicts_merge3 (a l r : Value) :
    (merge3 a l r).conflicts = (clashes a l r).map Conflict.field := by
  rw [merge3_eq]
  split
  · rename_i h
    rw [h]
    rfl
  · rfl

theorem merge3_clean_iff_clashes (a l r : Value) :
    (∃ m, merge3 a l r = .clean m) ↔ clashes a l r = [] := by
  constructor
  · intro ⟨m, hm⟩
    exact (merge3_clean_iff.mp hm).1
  · intro h
    exact ⟨merged a l r, merge3_clean_iff.mpr ⟨h, rfl⟩⟩

/-- Naming the two sides the other way changes neither whether the merge is clean nor its
conflicts, but for the names. -/
theorem merge3_swap (a l r : Value) :
    ((∃ m, merge3 a r l = .clean m) ↔ ∃ m, merge3 a l r = .clean m) ∧
      (merge3 a r l).conflicts = (merge3 a l r).conflicts.map ConflictedField.swap := by
  constructor
  · rw [merge3_clean_iff_clashes, merge3_clean_iff_clashes, clashes_swap a l r]
    exact List.map_eq_nil_iff
  · rw [conflicts_merge3, conflicts_merge3, clashes_swap a l r, List.map_map, List.map_map]
    rfl

end AuruPm
