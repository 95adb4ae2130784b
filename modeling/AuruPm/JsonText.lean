import AuruPm.Formats

/-!
# Documents as text

What a parser and a printer of JSON promise together. A parsed document is a map at every
object, nested only so deep; printing such a document and parsing it again gives it back, but
for rounded floats.
-/

namespace AuruPm

set_option autoImplicit false

open SortedAssoc

namespace Value

mutual
/-- The document with every float replaced by zero. -/
def unfloat : Value → Value
  | .number (.float _) => .number (.float 0)
  | .array elems => .array (unfloatElems elems)
  | .object fields => .object (unfloatFields fields)
  | v => v
def unfloatElems : List Value → List Value
  | [] => []
  | v :: vs => v.unfloat :: unfloatElems vs
def unfloatFields : List (String × Value) → List (String × Value)
  | [] => []
  | (k, v) :: fs => (k, v.unfloat) :: unfloatFields fs
end

theorem unfloatElems_eq (elems : List Value) : unfloatElems elems = elems.map unfloat := by
  induction elems with
  | nil => rfl
  | cons v vs ih => rw [unfloatElems, ih, List.map_cons]

theorem get?_unfloatFields (fields : List (String × Value)) (key : String) :
    get? (unfloatFields fields) key = (get? fields key).map unfloat := by
  induction fields with
  | nil => rfl
  | cons f fs ih =>
    obtain ⟨k, v⟩ := f
    simp only [unfloatFields, get?_cons, ih]
    split <;> rfl

theorem get_unfloat (v : Value) (key : String) : v.unfloat.get key = (v.get key).map unfloat := by
  cases v with
  | object fields => exact get?_unfloatFields fields key
  | number n => cases n <;> rfl
  | _ => rfl

theorem asStr_unfloat (v : Value) : v.unfloat.asStr = v.asStr := by
  cases v with
  | number n => cases n <;> rfl
  | _ => rfl

theorem asU64_unfloat (v : Value) : v.unfloat.asU64 = v.asU64 := by
  cases v with
  | number n => cases n <;> rfl
  | _ => rfl

theorem asArray_unfloat (v : Value) : v.unfloat.asArray = v.asArray.map (List.map unfloat) := by
  cases v with
  | array elems => rw [unfloat, asArray, unfloatElems_eq]; rfl
  | number n => cases n <;> rfl
  | _ => rfl

theorem depth_array_le_iff {elems : List Value} {n : Nat} :
    (array elems).depth ≤ n + 1 ↔ ∀ v ∈ elems, v.depth ≤ n := by
  constructor
  · intro h v hv
    have := depth_lt_array hv
    omega
  · intro h
    simp only [depth, Nat.add_le_add_iff_right]
    induction elems with
    | nil => exact Nat.zero_le n
    | cons v vs ih =>
      exact Nat.max_le.mpr ⟨h v List.mem_cons_self, ih fun w hw => h w (List.mem_cons_of_mem _ hw)⟩

theorem depth_object_le_iff {fields : List (String × Value)} {n : Nat} :
    (object fields).depth ≤ n + 1 ↔ ∀ e ∈ fields, e.2.depth ≤ n := by
  constructor
  · intro h e he
    have := depth_lt_object he
    omega
  · intro h
    simp only [depth, Nat.add_le_add_iff_right]
    induction fields with
    | nil => exact Nat.zero_le n
    | cons e fs ih =>
      exact Nat.max_le.mpr ⟨h e List.mem_cons_self, ih fun f hf => h f (List.mem_cons_of_mem _ hf)⟩

end Value

/-- What `serde_json` promises for documents nested up to some depth. -/
structure Formats.ReadsBack {Bytes Hash : Type} (F : Formats Bytes Hash) (limit : Nat) : Prop where
  decoded : ∀ bytes v, F.decodeValue bytes = .ok v → v.wf = true ∧ v.depth ≤ limit
  encoded : ∀ v : Value, v.wf = true → v.depth ≤ limit →
    ∃ w, F.decodeValue (F.encodeValue v) = .ok w ∧ w.unfloat = v.unfloat

end AuruPm
