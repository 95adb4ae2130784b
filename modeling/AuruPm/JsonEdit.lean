import AuruPm.JsonText

/-!
# Editing documents

Changes of the strings of a document at places that are named by keys, and what printing and parsing
does to its floats. The outline of a document is what no change of a string touches.
-/

namespace AuruPm

set_option autoImplicit false

open SortedAssoc

namespace Value

/-! Edits. -/

/-- The value at a key changed, where there is one. -/
def mapAt (key : String) (f : Value → Value) : Value → Value
  | .object fields => .object (fields.map fun e => if e.1 = key then (e.1, f e.2) else e)
  | v => v

def mapElems (f : Value → Value) : Value → Value
  | .array elems => .array (elems.map f)
  | v => v

def mapText (f : String → String) : Value → Value
  | .string s => .string (f s)
  | v => v

mutual
def mapFloats (f : Rat → Rat) : Value → Value
  | .number (.float q) => .number (.float (f q))
  | .array elems => .array (mapFloatsElems f elems)
  | .object fields => .object (mapFloatsFields f fields)
  | v => v
def mapFloatsElems (f : Rat → Rat) : List Value → List Value
  | [] => []
  | v :: vs => v.mapFloats f :: mapFloatsElems f vs
def mapFloatsFields (f : Rat → Rat) : List (String × Value) → List (String × Value)
  | [] => []
  | (k, v) :: fs => (k, v.mapFloats f) :: mapFloatsFields f fs
end

mutual
/-- The document with every string emptied. -/
def outline : Value → Value
  | .string _ => .string ""
  | .array elems => .array (outlineElems elems)
  | .object fields => .object (outlineFields fields)
  | v => v
def outlineElems : List Value → List Value
  | [] => []
  | v :: vs => v.outline :: outlineElems vs
def outlineFields : List (String × Value) → List (String × Value)
  | [] => []
  | (k, v) :: fs => (k, v.outline) :: outlineFields fs
end

theorem mapFloatsElems_eq (f : Rat → Rat) (elems : List Value) :
    mapFloatsElems f elems = elems.map (mapFloats f) := by
  induction elems with
  | nil => rfl
  | cons v vs ih => rw [mapFloatsElems, ih, List.map_cons]

theorem mapFloatsFields_eq (f : Rat → Rat) (fields : List (String × Value)) :
    mapFloatsFields f fields = fields.map fun e => (e.1, e.2.mapFloats f) := by
  induction fields with
  | nil => rfl
  | cons e fs ih => rw [mapFloatsFields, ih, List.map_cons]

theorem outlineElems_eq (elems : List Value) : outlineElems elems = elems.map outline := by
  induction elems with
  | nil => rfl
  | cons v vs ih => rw [outlineElems, ih, List.map_cons]

theorem outlineFields_eq (fields : List (String × Value)) :
    outlineFields fields = fields.map fun e => (e.1, e.2.outline) := by
  induction fields with
  | nil => rfl
  | cons e fs ih => rw [outlineFields, ih, List.map_cons]

/-! What is found after an edit. -/

theorem get?_mapEntry (key other : String) (f : Value → Value) (fields : List (String × Value)) :
    get? (fields.map fun e => if e.1 = key then (e.1, f e.2) else e) other =
      if other = key then (get? fields other).map f else get? fields other := by
  induction fields with
  | nil => simp
  | cons e fs ih =>
    obtain ⟨k, v⟩ := e
    rw [List.map_cons]
    by_cases hk : k = key
    · rw [if_pos hk, get?_cons, get?_cons, ih]
      by_cases ho : other = k
      · simp [ho, hk]
      · simp [ho]
    · rw [if_neg hk, get?_cons, get?_cons, ih]
      by_cases ho : other = k
      · simp [ho, hk]
      · simp [ho]

theorem get_mapAt (v : Value) (key other : String) (f : Value → Value) :
    (v.mapAt key f).get other = if other = key then (v.get other).map f else v.get other := by
  cases v with
  | object fields => exact get?_mapEntry key other f fields
  | _ => simp [mapAt, get]

theorem get_mapFloats (f : Rat → Rat) (v : Value) (key : String) :
    (v.mapFloats f).get key = (v.get key).map (mapFloats f) := by
  cases v with
  | object fields =>
    simp only [mapFloats, get]
    induction fields with
    | nil => rfl
    | cons e fs ih =>
      obtain ⟨k, v⟩ := e
      rw [mapFloatsFields, get?_cons, get?_cons, ih]
      split <;> rfl
  | number n => cases n <;> rfl
  | _ => rfl

theorem asStr_mapFloats (f : Rat → Rat) (v : Value) : (v.mapFloats f).asStr = v.asStr := by
  cases v with
  | number n => cases n <;> rfl
  | _ => rfl

theorem mapFloats_id (v : Value) : v.mapFloats id = v := by
  induction v using Value.induct with
  | number n => cases n <;> rfl
  | array xs ih =>
    rw [mapFloats, mapFloatsElems_eq, List.map_congr_left ih, List.map_id']
  | object fs ih =>
    have hfields : ∀ e ∈ fs, (e.1, e.2.mapFloats id) = e := fun e he => Prod.ext rfl (ih e he)
    rw [mapFloats, mapFloatsFields_eq, List.map_congr_left hfields, List.map_id']
  | _ => rfl

/-! Outlines. -/

theorem outline_mapAt {key : String} {f : Value → Value} (hf : ∀ v, (f v).outline = v.outline)
    (v : Value) : (v.mapAt key f).outline = v.outline := by
  cases v with
  | object fields =>
    simp only [mapAt, outline, outlineFields_eq, List.map_map]
    congr 1
    apply List.map_congr_left
    intro e _
    simp only [Function.comp_apply]
    split
    · rw [hf]
    · rfl
  | _ => rfl

theorem outline_mapElems {f : Value → Value} (hf : ∀ v, (f v).outline = v.outline) (v : Value) :
    (v.mapElems f).outline = v.outline := by
  cases v with
  | array elems =>
    simp only [mapElems, outline, outlineElems_eq, List.map_map]
    congr 1
    apply List.map_congr_left
    intro e _
    exact hf e
  | _ => rfl

theorem outline_mapText (f : String → String) (v : Value) : (v.mapText f).outline = v.outline := by
  cases v <;> rfl

theorem outline_mapFloats (f : Rat → Rat) (v : Value) :
    (v.mapFloats f).outline = v.outline.mapFloats f := by
  induction v using Value.induct with
  | number n => cases n <;> rfl
  | array xs ih =>
    simp only [mapFloats, outline, mapFloatsElems_eq, outlineElems_eq, List.map_map]
    congr 1
    exact List.map_congr_left ih
  | object fs ih =>
    simp only [mapFloats, outline, mapFloatsFields_eq, outlineFields_eq, List.map_map]
    congr 1
    apply List.map_congr_left
    intro e he
    simp only [Function.comp_apply, ih e he]
  | _ => rfl

/-- Floats are kept where those of the outline are. -/
theorem mapFloats_eq_iff_outline (f : Rat → Rat) (v : Value) :
    v.mapFloats f = v ↔ v.outline.mapFloats f = v.outline := by
  induction v using Value.induct with
  | number n => cases n <;> rfl
  | string s => exact iff_of_true rfl rfl
  | array xs ih =>
    simp only [mapFloats, outline, mapFloatsElems_eq, outlineElems_eq, Value.array.injEq,
      List.map_map]
    induction xs with
    | nil => simp
    | cons x xs ihxs =>
      simp only [List.map_cons, List.cons.injEq, Function.comp_apply]
      rw [ih x List.mem_cons_self, ihxs fun y hy => ih y (List.mem_cons_of_mem _ hy)]
  | object fs ih =>
    simp only [mapFloats, outline, mapFloatsFields_eq, outlineFields_eq, Value.object.injEq,
      List.map_map]
    induction fs with
    | nil => simp
    | cons e fs ihfs =>
      simp only [List.map_cons, List.cons.injEq, Function.comp_apply, Prod.ext_iff, true_and]
      rw [ih e List.mem_cons_self, ihfs fun e' he => ih e' (List.mem_cons_of_mem _ he)]
  | _ => rfl

theorem wf_outline (v : Value) : v.outline.wf = v.wf := by
  induction v using Value.induct with
  | array xs ih =>
    simp only [outline, outlineElems_eq, wf]
    induction xs with
    | nil => rfl
    | cons x xs ihxs =>
      simp only [List.map_cons, wfElems]
      rw [ih x List.mem_cons_self, ihxs fun y hy => ih y (List.mem_cons_of_mem _ hy)]
  | object fs ih =>
    have hsorted : Sorted (outlineFields fs) ↔ Sorted fs := by
      rw [outlineFields_eq, Sorted, List.pairwise_map, Sorted]
    simp only [outline, wf, hsorted]
    congr 1
    rw [outlineFields_eq]
    clear hsorted
    induction fs with
    | nil => rfl
    | cons e fs ihfs =>
      simp only [List.map_cons, wfFields]
      rw [ih e List.mem_cons_self, ihfs fun e' he => ih e' (List.mem_cons_of_mem _ he)]
  | _ => rfl

theorem depth_outline (v : Value) : v.outline.depth = v.depth := by
  induction v using Value.induct with
  | array xs ih =>
    simp only [outline, outlineElems_eq, depth]
    congr 1
    induction xs with
    | nil => rfl
    | cons x xs ihxs =>
      simp only [List.map_cons, depthElems]
      rw [ih x List.mem_cons_self, ihxs fun y hy => ih y (List.mem_cons_of_mem _ hy)]
  | object fs ih =>
    simp only [outline, outlineFields_eq, depth]
    congr 1
    induction fs with
    | nil => rfl
    | cons e fs ihfs =>
      simp only [List.map_cons, depthFields]
      rw [ih e List.mem_cons_self, ihfs fun e' he => ih e' (List.mem_cons_of_mem _ he)]
  | _ => rfl

end Value

/-- What `serde_json` promises for documents nested up to some depth: a document is printed exactly,
and each float is parsed from its own text. -/
structure Formats.Reparses {Bytes Hash : Type} (F : Formats Bytes Hash) (limit : Nat)
    (again : Rat → Rat) : Prop where
  decoded : ∀ bytes v, F.decodeValue bytes = .ok v → v.wf = true ∧ v.depth ≤ limit
  encoded : ∀ v : Value, v.wf = true → v.depth ≤ limit →
    F.decodeValue (F.encodeValue v) = .ok (v.mapFloats again)
  printed : Function.Injective F.encodeValue

end AuruPm
