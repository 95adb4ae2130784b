import AuruPm.Json

/-!
# Recursive three-way merge

`merge3` of the kernel. The walk is written over an arbitrary recursive call and then tied
by the ancestor's depth: below a scalar ancestor, or past the end of an ancestor array, the
source only merges scalars. A conflict keeps its path as steps. `renderPath` prints them the
way `child_path` and the two `format!` calls build the string.
-/

namespace AuruPm

set_option autoImplicit false

open SortedAssoc Value

/-- A single field that could not be auto-resolved. -/
structure ConflictedField where
  path : String
  ancestor : Option Value
  localValue : Option Value
  remote : Option Value
  deriving DecidableEq

inductive MergeOutcome where
  | clean (merged : Value)
  | conflict (base : Value) (conflicts : List ConflictedField)
  deriving DecidableEq

/-- One step of the walk. `element id nth` is the `nth` ancestor element with this id. -/
inductive PathStep where
  | key (key : String)
  | index (i : Nat)
  | element (id : String) (nth : Nat)
  deriving DecidableEq, Repr

/-- A step of a parsed path: what a conflict path can name. -/
inductive ConflictPathSegment where
  | key (key : String)
  | index (i : Nat)
  | id (id : String)
  deriving DecidableEq, Repr

def PathStep.segment : PathStep → ConflictPathSegment
  | .key k => .key k
  | .index i => .index i
  | .element x _ => .id x

def childPath (parent key : String) : String :=
  if parent = "" then key else parent ++ "." ++ key

/-- The printed path after one more step. An element prints its id only. -/
def renderStep (parent : String) : PathStep → String
  | .key key => childPath parent key
  | .index i => parent ++ "." ++ toString i
  | .element id _ => parent ++ "[id=" ++ id ++ "]"

def renderPath (path : List PathStep) : String := path.foldl renderStep ""

/-- A conflict before its path is printed. -/
structure Conflict where
  path : List PathStep
  ancestor : Option Value
  localValue : Option Value
  remote : Option Value
  deriving DecidableEq

def Conflict.location (c : Conflict) : List ConflictPathSegment := c.path.map PathStep.segment

def Conflict.field (c : Conflict) : ConflictedField :=
  ⟨renderPath c.path, c.ancestor, c.localValue, c.remote⟩

/-- A recursive call: three values, the path to them, the merged value and its conflicts. -/
abbrev MergeFn := Value → Value → Value → List PathStep → Value × List Conflict

def mergeScalar : MergeFn := fun ancestor localValue remote path =>
  match decide (localValue ≠ ancestor), decide (remote ≠ ancestor) with
  | false, false => (ancestor, [])
  | true, false => (localValue, [])
  | false, true => (remote, [])
  | true, true =>
    if localValue = remote then (localValue, [])
    else (localValue, [⟨path, some ancestor, some localValue, some remote⟩])

/-- The body of the key loop of `merge_objects`: what becomes of one key. -/
def mergeField (rec : MergeFn) (path : List PathStep) (key : String) (aVal lVal rVal : Option Value) :
    Option Value × List Conflict :=
  let childPath := path ++ [.key key]
  match aVal, lVal, rVal with
  | _, none, none => (none, [])
  | none, some lv, none => (some lv, [])
  | none, none, some rv => (some rv, [])
  | some av, none, some rv => if rv = av then (none, []) else (some rv, [])
  | some av, some lv, none => if lv = av then (none, []) else (some lv, [])
  | some av, some lv, some rv =>
    match decide (lv ≠ av), decide (rv ≠ av) with
    | false, false => (some av, [])
    | true, false => (some lv, [])
    | false, true => (some rv, [])
    | true, true =>
      let (merged, conflicts) := rec av lv rv childPath
      (some merged, conflicts)
  | none, some lv, some rv =>
    if lv = rv then (some lv, [])
    else (some lv, [⟨childPath, none, some lv, some rv⟩])

def allKeys (a l r : List (String × Value)) : List String :=
  keySet (a.map Prod.fst ++ l.map Prod.fst ++ r.map Prod.fst)

def mergeObjects (rec : MergeFn) (a l r : List (String × Value)) (path : List PathStep) :
    List (String × Value) × List Conflict :=
  let merge key := mergeField rec path key (get? a key) (get? l key) (get? r key)
  (ofKeys (allKeys a l r) fun key => (merge key).1,
   (allKeys a l r).flatMap fun key => (merge key).2)

def idField (v : Value) : Option String := (v.get "id").bind Value.asStr

def allHaveId (arr : List Value) : Bool := arr.all fun v => (idField v).isSome

def idOf (v : Value) : String := (idField v).getD ""

/-- Lookup in the id-keyed map of an array: a later element replaces an earlier one. -/
def byId (arr : List Value) (id : String) : Option Value :=
  arr.reverse.find? fun v => idOf v = id

/-- First pass of `merge_arrays_by_id`, in ancestor order. `seen` holds the ids already passed. -/
def mergeShared (rec : MergeFn) (l r : List Value) (path : List PathStep) :
    List String → List Value → List Value × List Conflict
  | _, [] => ([], [])
  | seen, av :: rest =>
    let id := idOf av
    let (out, conflicts) := mergeShared rec l r path (seen ++ [id]) rest
    match byId l id, byId r id with
    | none, none => (out, conflicts)
    | some lv, none => if lv = av then (out, conflicts) else (lv :: out, conflicts)
    | none, some rv => if rv = av then (out, conflicts) else (rv :: out, conflicts)
    | some lv, some rv =>
      let (merged, found) := rec av lv rv (path ++ [.element id (seen.count id)])
      (merged :: out, found ++ conflicts)

def mergeArraysById (rec : MergeFn) (a l r : List Value) (path : List PathStep) :
    Value × List Conflict :=
  let (shared, conflicts) := mergeShared rec l r path [] a
  let localAdditions := l.filter fun lv => (byId a (idOf lv)).isNone
  let remoteAdditions := r.filter fun rv =>
    (byId a (idOf rv)).isNone && (byId l (idOf rv)).isNone
  (.array (shared ++ localAdditions ++ remoteAdditions), conflicts)

def mergeArraysByIndex (rec : MergeFn) (a l r : List Value) (path : List PathStep) :
    Value × List Conflict :=
  let len := max (max a.length l.length) r.length
  let merge i := rec (a[i]?.getD .null) (l[i]?.getD .null) (r[i]?.getD .null) (path ++ [.index i])
  (.array ((List.range len).map fun i => (merge i).1),
   (List.range len).flatMap fun i => (merge i).2)

def mergeArrays (rec : MergeFn) (a l r : List Value) (path : List PathStep) :
    Value × List Conflict :=
  if allHaveId a && allHaveId l && allHaveId r then mergeArraysById rec a l r path
  else mergeArraysByIndex rec a l r path

/-- One level of `merge_values`. -/
def mergeNode (rec : MergeFn) : MergeFn := fun ancestor localValue remote path =>
  match ancestor, localValue, remote with
  | .object a, .object l, .object r =>
    let (fields, conflicts) := mergeObjects rec a l r path
    (.object fields, conflicts)
  | .array a, .array l, .array r => mergeArrays rec a l r path
  | _, _, _ => mergeScalar ancestor localValue remote path

def mergeToDepth : Nat → MergeFn
  | 0 => mergeScalar
  | n + 1 => mergeNode (mergeToDepth n)

def mergeValues : MergeFn := fun ancestor localValue remote path =>
  mergeToDepth ancestor.depth ancestor localValue remote path

def merge3 (ancestor localValue remote : Value) : MergeOutcome :=
  let (merged, conflicts) := mergeValues ancestor localValue remote []
  if conflicts.isEmpty then .clean merged
  else .conflict merged (conflicts.map Conflict.field)

end AuruPm
