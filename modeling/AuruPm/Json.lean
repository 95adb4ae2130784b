import AuruPm.Lib.SortedAssoc
import Mathlib.Data.String.Basic
import Mathlib.Data.Rat.Defs

/-!
# JSON values

`serde_json::Value` as the merge and the snapshot code see it. An object is its list of
entries, and a well-formed one is sorted by key, so that equality of values is equality of
maps. A finite float is taken by its value, as `==` compares it: the two zeros are one value.
-/

namespace AuruPm

set_option autoImplicit false

open SortedAssoc

inductive Number where
  | posInt (n : UInt64)
  /-- Strictly negative integers. -/
  | negInt (n : Int64)
  | float (q : Rat)
  deriving DecidableEq, Repr

inductive Value where
  | null
  | bool (b : Bool)
  | number (n : Number)
  | string (s : String)
  | array (elems : List Value)
  | object (fields : List (String × Value))
  deriving Repr

namespace Value

mutual
def decEq : (a b : Value) → Decidable (a = b)
  | .null, .null => .isTrue rfl
  | .bool a, .bool b => decidable_of_iff (a = b) (by simp)
  | .number a, .number b => decidable_of_iff (a = b) (by simp)
  | .string a, .string b => decidable_of_iff (a = b) (by simp)
  | .array a, .array b =>
    match decEqElems a b with
    | .isTrue h => .isTrue (congrArg _ h)
    | .isFalse h => .isFalse fun hab => h (Value.array.inj hab)
  | .object a, .object b =>
    match decEqFields a b with
    | .isTrue h => .isTrue (congrArg _ h)
    | .isFalse h => .isFalse fun hab => h (Value.object.inj hab)
  | .null, .bool _ | .null, .number _ | .null, .string _ | .null, .array _ | .null, .object _
  | .bool _, .null | .bool _, .number _ | .bool _, .string _ | .bool _, .array _
  | .bool _, .object _
  | .number _, .null | .number _, .bool _ | .number _, .string _ | .number _, .array _
  | .number _, .object _
  | .string _, .null | .string _, .bool _ | .string _, .number _ | .string _, .array _
  | .string _, .object _
  | .array _, .null | .array _, .bool _ | .array _, .number _ | .array _, .string _
  | .array _, .object _
  | .object _, .null | .object _, .bool _ | .object _, .number _ | .object _, .string _
  | .object _, .array _ => .isFalse nofun
def decEqElems : (a b : List Value) → Decidable (a = b)
  | [], [] => .isTrue rfl
  | [], _ :: _ => .isFalse nofun
  | _ :: _, [] => .isFalse nofun
  | x :: xs, y :: ys =>
    match decEq x y, decEqElems xs ys with
    | .isTrue h, .isTrue hs => .isTrue (by rw [h, hs])
    | .isFalse h, _ => .isFalse fun he => h (List.cons.inj he).1
    | _, .isFalse hs => .isFalse fun he => hs (List.cons.inj he).2
def decEqFields : (a b : List (String × Value)) → Decidable (a = b)
  | [], [] => .isTrue rfl
  | [], _ :: _ => .isFalse nofun
  | _ :: _, [] => .isFalse nofun
  | (k, x) :: xs, (l, y) :: ys =>
    match decEq x y, decEqFields xs ys with
    | .isTrue h, .isTrue hs =>
      decidable_of_iff (k = l) ⟨fun hk => by rw [hk, h, hs], fun he => by simp_all⟩
    | .isFalse h, _ => .isFalse fun he => h (Prod.ext_iff.mp (List.cons.inj he).1).2
    | _, .isFalse hs => .isFalse fun he => hs (List.cons.inj he).2
end

instance : DecidableEq Value := decEq

mutual
/-- Nesting depth; a scalar has depth zero. -/
def depth : Value → Nat
  | .array elems => depthElems elems + 1
  | .object fields => depthFields fields + 1
  | _ => 0
def depthElems : List Value → Nat
  | [] => 0
  | v :: vs => max v.depth (depthElems vs)
def depthFields : List (String × Value) → Nat
  | [] => 0
  | (_, v) :: fs => max v.depth (depthFields fs)
end

theorem depth_le_depthElems {v : Value} {vs : List Value} (h : v ∈ vs) :
    v.depth ≤ depthElems vs := by
  induction vs with
  | nil => simp at h
  | cons w vs ih =>
    simp only [depthElems]
    rcases List.mem_cons.mp h with rfl | h
    · exact Nat.le_max_left _ _
    · exact Nat.le_trans (ih h) (Nat.le_max_right _ _)

theorem depth_le_depthFields {e : String × Value} {fs : List (String × Value)} (h : e ∈ fs) :
    e.2.depth ≤ depthFields fs := by
  induction fs with
  | nil => simp at h
  | cons f fs ih =>
    simp only [depthFields]
    rcases List.mem_cons.mp h with rfl | h
    · exact Nat.le_max_left _ _
    · exact Nat.le_trans (ih h) (Nat.le_max_right _ _)

theorem depth_lt_array {v : Value} {vs : List Value} (h : v ∈ vs) :
    v.depth < (array vs).depth := by
  have := depth_le_depthElems h
  simp only [depth]
  omega

theorem depth_lt_object {e : String × Value} {fs : List (String × Value)} (h : e ∈ fs) :
    e.2.depth < (object fs).depth := by
  have := depth_le_depthFields h
  simp only [depth]
  omega

theorem depth_lt_of_get? {fs : List (String × Value)} {k : String} {v : Value}
    (h : get? fs k = some v) : v.depth < (object fs).depth :=
  depth_lt_object (mem_of_get? h)

/-- Induction over a value, its elements and the values of its fields. -/
@[elab_as_elim]
theorem induct {P : Value → Prop} (null : P .null) (bool : ∀ b, P (.bool b))
    (number : ∀ n, P (.number n)) (string : ∀ s, P (.string s))
    (array : ∀ xs, (∀ x ∈ xs, P x) → P (.array xs))
    (object : ∀ fs, (∀ e ∈ fs, P e.2) → P (.object fs)) (v : Value) : P v := by
  have go : ∀ n (v : Value), v.depth < n → P v := by
    intro n
    induction n with
    | zero => exact fun v h => absurd h (Nat.not_lt_zero _)
    | succ n ih =>
      intro v h
      cases v with
      | null => exact null
      | bool b => exact bool b
      | number n => exact number n
      | string s => exact string s
      | array xs =>
        apply array
        intro x hx
        have := depth_lt_array hx
        exact ih x (by omega)
      | object fs =>
        apply object
        intro e he
        have := depth_lt_object he
        exact ih e.2 (by omega)
  exact go _ v (Nat.lt_succ_self _)

mutual
/-- Every object in the value has strictly increasing keys. -/
def wf : Value → Bool
  | .array elems => wfElems elems
  | .object fields => decide (Sorted fields) && wfFields fields
  | _ => true
def wfElems : List Value → Bool
  | [] => true
  | v :: vs => v.wf && wfElems vs
def wfFields : List (String × Value) → Bool
  | [] => true
  | (_, v) :: fs => v.wf && wfFields fs
end

@[simp] theorem wf_array {vs : List Value} : (array vs).wf = true ↔ ∀ v ∈ vs, v.wf = true := by
  simp only [wf]
  induction vs with
  | nil => simp [wfElems]
  | cons v vs ih => simp [wfElems, ih]

@[simp] theorem wf_object {fs : List (String × Value)} :
    (object fs).wf = true ↔ Sorted fs ∧ ∀ e ∈ fs, e.2.wf = true := by
  have hfields : wfFields fs = true ↔ ∀ e ∈ fs, e.2.wf = true := by
    induction fs with
    | nil => simp [wfFields]
    | cons f fs ih =>
      simp only [wfFields, Bool.and_eq_true, ih, List.mem_cons]
      exact ⟨fun h e he => he.elim (fun he => he ▸ h.1) (h.2 e),
        fun h => ⟨h f (Or.inl rfl), fun e he => h e (Or.inr he)⟩⟩
  simp [wf, hfields]

theorem wf_of_get? {fs : List (String × Value)} (h : (object fs).wf = true) {k : String}
    {v : Value} (hv : get? fs k = some v) : v.wf = true :=
  (wf_object.mp h).2 (k, v) (mem_of_get? hv)

/-- `Value::get` with a string index. -/
def get (v : Value) (key : String) : Option Value :=
  match v with
  | .object fields => get? fields key
  | _ => none

def asStr : Value → Option String
  | .string s => some s
  | _ => none

def asU64 : Value → Option UInt64
  | .number (.posInt n) => some n
  | _ => none

def asArray : Value → Option (List Value)
  | .array elems => some elems
  | _ => none

def isArray : Value → Bool
  | .array _ => true
  | _ => false

def isObject : Value → Bool
  | .object _ => true
  | _ => false

end Value

/-- A JSON document: a value all of whose objects are maps. -/
structure Json where
  value : Value
  wf : value.wf = true
  deriving DecidableEq

end AuruPm
