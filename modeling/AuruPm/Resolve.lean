import AuruPm.ConflictPath
import AuruPm.Location

/-!
# Applying conflict choices

`resolve_conflicts` walks the parsed path of every conflict that was chosen `Remote` and
replaces the value there. `overwrite` is what that should do: it follows the steps of the
merge itself, so it does not depend on how a path is printed.
-/

namespace AuruPm

set_option autoImplicit false

open SortedAssoc Value

inductive ConflictChoice where
  | localValue
  | remote
  deriving DecidableEq, Repr

def hasId (id : String) (entry : Value) : Bool := decide (idField entry = some id)

/-- Where a segment leads from a container. -/
def ConflictPathSegment.child : ConflictPathSegment → Value → Option Value
  | .key k, .object fields => get? fields k
  | .index i, .array elems => elems[i]?
  | .id x, .array elems => elems.find? (hasId x)
  | _, _ => none

/-- The container with another value where the segment leads. -/
def ConflictPathSegment.assign (v : Value) : ConflictPathSegment → Value → Value
  | .key k, .object fields => .object (insert k v fields)
  | .index i, .array elems => .array (elems.set i v)
  | .id x, .array elems => .array (elems.set (elems.findIdx (hasId x)) v)
  | _, current => current

def unavailable (path : String) : ConflictPathSegment → String
  | .key k => "conflict path '" ++ path ++ "' is unavailable at '" ++ k ++ "'"
  | .index i => "conflict path '" ++ path ++ "' is unavailable at index " ++ toString i
  | .id x => "conflict path '" ++ path ++ "' has no item with id '" ++ x ++ "'"

/-- The final match of `set_conflicted_value`. -/
def setLast (path : String) (last : ConflictPathSegment) (replacement : Option Value)
    (current : Value) : Except String Value :=
  match last, replacement, current with
  | .key k, some v, .object fields => .ok (.object (insert k v fields))
  | .key k, none, .object fields => .ok (.object (erase k fields))
  | .key _, _, _ => .error ("conflict path '" ++ path ++ "' does not address an object")
  | .index i, some v, .array elems =>
    if i < elems.length then .ok (.array (elems.set i v))
    else .error ("conflict path '" ++ path ++ "' has no index " ++ toString i)
  | .index i, some _, _ => .error ("conflict path '" ++ path ++ "' has no index " ++ toString i)
  | .index i, none, .array elems =>
    if elems.length ≤ i then
      .error ("conflict path '" ++ path ++ "' has no index " ++ toString i)
    else .ok (.array (elems.eraseIdx i))
  | .index _, none, _ => .error ("conflict path '" ++ path ++ "' does not address an array")
  | .id x, some v, .array elems =>
    if elems.any (hasId x) then .ok (.array (elems.set (elems.findIdx (hasId x)) v))
    else .error (unavailable path (.id x))
  | .id x, some _, _ => .error (unavailable path (.id x))
  | .id x, none, .array elems =>
    if elems.any (hasId x) then .ok (.array (elems.eraseIdx (elems.findIdx (hasId x))))
    else .error (unavailable path (.id x))
  | .id _, none, _ => .error ("conflict path '" ++ path ++ "' does not address an array")

def setSegments (path : String) (replacement : Option Value) :
    List ConflictPathSegment → Value → Except String Value
  | [], _ => .error "conflict path cannot be empty"
  | [last], current => setLast path last replacement current
  | segment :: next :: rest, current =>
    match segment.child current with
    | none => .error (unavailable path segment)
    | some child =>
      (setSegments path replacement (next :: rest) child).map fun v => segment.assign v current

def setConflictedValue (root : Value) (path : String) (replacement : Option Value) :
    Except String Value :=
  match conflictPathSegments path with
  | .error e => .error e
  | .ok segments => setSegments path replacement segments root

def applyChoices : Value → List (ConflictedField × ConflictChoice) → Except String Value
  | base, [] => .ok base
  | base, (conflict, choice) :: rest =>
    if choice = .remote then
      match setConflictedValue base conflict.path conflict.remote with
      | .error e => .error e
      | .ok base => applyChoices base rest
    else applyChoices base rest

def resolveConflicts (base : Value) (conflicts : List ConflictedField)
    (choices : List ConflictChoice) : Except String Value :=
  if conflicts.length ≠ choices.length then
    .error ("expected " ++ toString conflicts.length ++ " conflict choice(s), received " ++
      toString choices.length)
  else applyChoices base (conflicts.zip choices)

/-! Locations of the merge in one document. -/

/-- The place in the array of the element that a step names. -/
def place (id : String) : Nat → List Value → Nat
  | _, [] => 0
  | nth, v :: vs =>
    if hasId id v then (if nth = 0 then 0 else place id (nth - 1) vs + 1)
    else place id nth vs + 1

def PathStep.child : PathStep → Value → Option Value
  | .key k, .object fields => get? fields k
  | .index i, .array elems => elems[i]?
  | .element x nth, .array elems => elems[place x nth elems]?
  | _, _ => none

def PathStep.assign (v : Value) : PathStep → Value → Value
  | .key k, .object fields => .object (insert k v fields)
  | .index i, .array elems => .array (elems.set i v)
  | .element x nth, .array elems => .array (elems.set (place x nth elems) v)
  | _, current => current

/-- The value that the steps lead to. -/
def locate : List PathStep → Value → Option Value
  | [], v => some v
  | s :: steps, v => (s.child v).bind (locate steps)

/-- The document with another value where the steps lead; unchanged if they lead nowhere. -/
def overwrite (new : Value) : List PathStep → Value → Value
  | [], _ => new
  | s :: steps, v =>
    match s.child v with
    | none => v
    | some child => s.assign (overwrite new steps child) v


section Place
variable {x y : String} {v : Value} {elems : List Value}

theorem hasId_iff : hasId x v = true ↔ idField v = some x := by
  simp [hasId]

theorem hasId_congr {w : Value} (h : idField v = idField w) (x : String) : hasId x v = hasId x w := by
  simp [hasId, h]

theorem place_zero (x : String) (elems : List Value) :
    place x 0 elems = elems.findIdx (hasId x) := by
  induction elems with
  | nil => rfl
  | cons w ws ih =>
    cases hw : hasId x w <;> simp [place, List.findIdx_cons, hw, ih]

theorem idField_at_place {n : Nat} (h : elems[place x n elems]? = some v) :
    idField v = some x := by
  induction elems generalizing n with
  | nil => simp at h
  | cons w ws ih =>
    rw [place] at h
    split at h
    · rename_i hw
      cases n with
      | zero =>
        simp only [if_true, List.getElem?_cons_zero, Option.some.injEq] at h
        exact hasId_iff.mp (h ▸ hw)
      | succ n => exact ih (by simpa using h)
    · exact ih (by simpa using h)

theorem place_injective {n m : Nat} (hlt : place x n elems < elems.length)
    (h : place x n elems = place x m elems) : n = m := by
  induction elems generalizing n m with
  | nil => simp at hlt
  | cons w ws ih =>
    simp only [place, List.length_cons] at h hlt
    split at h
    · rename_i hw
      simp only [hw, if_true] at hlt
      cases n with
      | zero =>
        cases m with
        | zero => rfl
        | succ m => simp at h
      | succ n =>
        cases m with
        | zero => simp at h
        | succ m => exact congrArg Nat.succ (ih (by simpa using hlt) (by simpa using h))
    · rename_i hw
      simp only [hw] at hlt
      exact ih (by simpa using hlt) (by simpa using h)

/-- Different element steps name different places. -/
theorem place_ne {n m : Nat} {w : Value} (hne : (x, n) ≠ (y, m))
    (h : elems[place x n elems]? = some w) : place x n elems ≠ place y m elems := by
  intro heq
  have hx := idField_at_place h
  rw [heq] at h
  have hy := idField_at_place h
  obtain rfl : x = y := Option.some.inj (hx.symm.trans hy)
  rw [← heq] at h
  have := place_injective (List.getElem?_eq_some_iff.mp h).1 heq
  exact hne (by rw [this])

/-- Replacing an element by one with its id moves no place. -/
theorem place_set {i : Nat} {w : Value} (hw : elems[i]? = some w) (hid : idField v = idField w)
    (n : Nat) : place y n (elems.set i v) = place y n elems := by
  induction elems generalizing i n with
  | nil => rfl
  | cons u us ih =>
    cases i with
    | zero =>
      obtain rfl : u = w := by simpa using hw
      simp only [List.set_cons_zero, place, hasId_congr hid]
    | succ i =>
      have hrest := ih (i := i) (by simpa using hw)
      simp only [List.set_cons_succ, place, hrest]

end Place

/-- The two steps leave one container for different places. -/
def Beside : PathStep → PathStep → Prop
  | .key k, .key k' => k ≠ k'
  | .index i, .index j => i ≠ j
  | .element x n, .element y m => (x, n) ≠ (y, m)
  | _, _ => False

/-- The two locations part at a common container. -/
inductive Apart : List PathStep → List PathStep → Prop
  | head {s t : PathStep} (h : Beside s t) (p q : List PathStep) : Apart (s :: p) (t :: q)
  | tail (s : PathStep) {p q : List PathStep} (h : Apart p q) : Apart (s :: p) (s :: q)

/-- The steps end neither at an element nor at the id of one. -/
def KeepsIds : List PathStep → Prop
  | [] => True
  | .element _ _ :: .key k :: steps => k ≠ "id" ∧ KeepsIds (.key k :: steps)
  | .element _ _ :: _ => False
  | .key _ :: steps => KeepsIds steps
  | .index _ :: steps => KeepsIds steps

theorem KeepsIds.tail {s : PathStep} {steps : List PathStep} (h : KeepsIds (s :: steps)) :
    KeepsIds steps := by
  cases s with
  | key k => exact h
  | index i => exact h
  | element x n =>
    cases steps with
    | nil => trivial
    | cons t steps =>
      cases t with
      | key k => exact h.2
      | index i => exact h.elim
      | element y m => exact h.elim

theorem KeepsIds.idField_overwrite {x : String} {n : Nat} {steps : List PathStep}
    (h : KeepsIds (.element x n :: steps)) (new w : Value) :
    idField (overwrite new steps w) = idField w := by
  cases steps with
  | nil => exact h.elim
  | cons t steps =>
    cases t with
    | index i => exact h.elim
    | element y m => exact h.elim
    | key k =>
      rw [overwrite]
      split
      · rfl
      · cases w with
        | object fields =>
          have hk : "id" ≠ k := fun he => h.1 he.symm
          simp [PathStep.assign, idField, Value.get, get?_insert, hk]
        | _ => rfl

theorem child_assign_self {s : PathStep} {w c v : Value} (hc : s.child w = some c)
    (hid : ∀ x n, s = .element x n → idField v = idField c) : s.child (s.assign v w) = some v := by
  cases s with
  | key k =>
    cases w with
    | object fields => simp [PathStep.child, PathStep.assign, get?_insert]
    | _ => simp [PathStep.child] at hc
  | index i =>
    cases w with
    | array elems =>
      have hlt := (List.getElem?_eq_some_iff.mp hc).1
      simp [PathStep.child, PathStep.assign, hlt]
    | _ => simp [PathStep.child] at hc
  | element x n =>
    cases w with
    | array elems =>
      have hlt := (List.getElem?_eq_some_iff.mp hc).1
      simp [PathStep.child, PathStep.assign, place_set hc (hid x n rfl), hlt]
    | _ => simp [PathStep.child] at hc

theorem child_assign_beside {s t : PathStep} {w c v : Value} (hc : s.child w = some c)
    (hst : Beside s t) (hid : ∀ x n, s = .element x n → idField v = idField c) :
    t.child (s.assign v w) = t.child w := by
  cases s with
  | key k =>
    cases t with
    | key k' =>
      cases w with
      | object fields =>
        have hk : k' ≠ k := fun he => hst he.symm
        simp [PathStep.child, PathStep.assign, get?_insert, hk]
      | _ => rfl
    | _ => exact hst.elim
  | index i =>
    cases t with
    | index j =>
      cases w with
      | array elems => simp [PathStep.child, PathStep.assign, List.getElem?_set_ne hst]
      | _ => rfl
    | _ => exact hst.elim
  | element x n =>
    cases t with
    | element y m =>
      cases w with
      | array elems =>
        have hne := place_ne hst hc
        simp [PathStep.child, PathStep.assign, place_set hc (hid x n rfl), List.getElem?_set_ne hne]
      | _ => rfl
    | _ => exact hst.elim

theorem locate_cons {s : PathStep} {steps : List PathStep} {v c : Value}
    (h : locate (s :: steps) v = some c) : ∃ w, s.child v = some w ∧ locate steps w = some c :=
  Option.bind_eq_some_iff.mp h

theorem locate_overwrite_self {steps : List PathStep} (hk : KeepsIds steps) {v c : Value}
    (h : locate steps v = some c) (new : Value) : locate steps (overwrite new steps v) = some new := by
  induction steps generalizing v with
  | nil => rfl
  | cons s steps ih =>
    obtain ⟨w, hw, hc⟩ := locate_cons h
    simp only [overwrite, hw, locate]
    rw [child_assign_self hw fun x n hs => (hs ▸ hk).idField_overwrite new w]
    exact ih hk.tail hc

theorem locate_overwrite_apart {p q : List PathStep} (hk : KeepsIds p) (h : Apart p q)
    (new v : Value) : locate q (overwrite new p v) = locate q v := by
  induction h generalizing v with
  | @head s t hst p q =>
    rw [overwrite]
    split
    · rfl
    · rename_i w hw
      rw [locate, locate, child_assign_beside hw hst
        fun x n hs => (hs ▸ hk).idField_overwrite new w]
  | tail s _ ih =>
    rw [overwrite]
    split
    · rfl
    · rename_i w hw
      rw [locate, locate, child_assign_self hw fun x n hs => (hs ▸ hk).idField_overwrite new w, hw]
      exact ih hk.tail w

/-! The parsed path of addressable steps. -/

theorem segment_child {s : PathStep} (hs : s.Addressable) (v : Value) :
    s.segment.child v = s.child v := by
  cases s with
  | key k => cases v <;> rfl
  | index i => cases v <;> rfl
  | element x n =>
    obtain rfl : n = 0 := hs.2
    cases v with
    | array elems =>
      simp only [PathStep.segment, ConflictPathSegment.child, PathStep.child, place_zero]
      exact List.find?_eq_getElem?_findIdx
    | _ => rfl

theorem segment_assign {s : PathStep} (hs : s.Addressable) (v w : Value) :
    s.segment.assign v w = s.assign v w := by
  cases s with
  | key k => cases w <;> rfl
  | index i => cases w <;> rfl
  | element x n =>
    obtain rfl : n = 0 := hs.2
    cases w with
    | array elems =>
      simp only [PathStep.segment, ConflictPathSegment.assign, PathStep.assign, place_zero]
    | _ => rfl

theorem setLast_some {path : String} {t : ConflictPathSegment} {w c : Value}
    (h : t.child w = some c) (v : Value) : setLast path t (some v) w = .ok (t.assign v w) := by
  cases t with
  | key k => cases w <;> simp_all [ConflictPathSegment.child, setLast, ConflictPathSegment.assign]
  | index i =>
    cases w with
    | array elems =>
      have hlt := (List.getElem?_eq_some_iff.mp h).1
      simp [setLast, ConflictPathSegment.assign, hlt]
    | _ => simp [ConflictPathSegment.child] at h
  | id x =>
    cases w with
    | array elems =>
      have hany : elems.any (hasId x) = true :=
        List.any_eq_true.mpr ⟨c, List.mem_of_find?_eq_some h, List.find?_some h⟩
      simp [setLast, ConflictPathSegment.assign, hany]
    | _ => simp [ConflictPathSegment.child] at h

theorem setSegments_eq_overwrite {path : String} {steps : List PathStep} (hne : steps ≠ [])
    (hs : ∀ s ∈ steps, s.Addressable) {v c : Value} (h : locate steps v = some c) (new : Value) :
    setSegments path (some new) (steps.map PathStep.segment) v = .ok (overwrite new steps v) := by
  induction steps generalizing v with
  | nil => exact absurd rfl hne
  | cons s steps ih =>
    obtain ⟨w, hw, hc⟩ := locate_cons h
    have hadd := hs s List.mem_cons_self
    have hchild := (segment_child hadd v).trans hw
    cases steps with
    | nil =>
      simp only [List.map_cons, List.map_nil, setSegments, overwrite, hw]
      rw [setLast_some hchild, segment_assign hadd]
    | cons t steps =>
      have hrest := ih (by simp) (fun u hu => hs u (List.mem_cons_of_mem s hu)) hc
      simp only [List.map_cons, setSegments, hchild] at hrest ⊢
      rw [hrest, Except.map, segment_assign hadd]
      simp only [overwrite, hw]

/-! A path that is not read back puts the value elsewhere, or nowhere. -/

theorem overwrite_ne {steps : List PathStep} (hk : KeepsIds steps) {v old new : Value}
    (h : locate steps v = some old) (hne : old ≠ new) : overwrite new steps v ≠ v := by
  intro he
  have hnew := locate_overwrite_self hk h new
  rw [he, h] at hnew
  exact hne (Option.some.inj hnew)

theorem depth_child_lt {s : PathStep} {v w : Value} (h : s.child v = some w) :
    w.depth < v.depth := by
  cases s with
  | key k =>
    cases v with
    | object fields => exact depth_lt_of_get? h
    | _ => simp [PathStep.child] at h
  | index i =>
    cases v with
    | array elems => exact depth_lt_array (List.mem_of_getElem? h)
    | _ => simp [PathStep.child] at h
  | element x n =>
    cases v with
    | array elems => exact depth_lt_array (List.mem_of_getElem? h)
    | _ => simp [PathStep.child] at h

theorem depth_le_of_locate {steps : List PathStep} {v w : Value} (h : locate steps v = some w) :
    w.depth ≤ v.depth := by
  induction steps generalizing v with
  | nil =>
    cases h
    exact Nat.le_refl _
  | cons s steps ih =>
    obtain ⟨u, hu, hw⟩ := locate_cons h
    have := depth_child_lt hu
    have := ih hw
    omega

/-- A value is never part of itself. -/
theorem overwrite_cons_ne_new {s : PathStep} {steps : List PathStep} (hk : KeepsIds (s :: steps))
    {v old : Value} (h : locate (s :: steps) v = some old) (new : Value) :
    overwrite new (s :: steps) v ≠ new := by
  intro he
  have hnew := locate_overwrite_self hk h new
  rw [he] at hnew
  obtain ⟨w, hw, hn⟩ := locate_cons hnew
  have := depth_child_lt hw
  have := depth_le_of_locate hn
  omega

theorem set_injective {elems : List Value} {i : Nat} {c u v : Value} (hc : elems[i]? = some c)
    (h : elems.set i u = elems.set i v) : u = v := by
  have hlt := (List.getElem?_eq_some_iff.mp hc).1
  have hat := congrArg (·[i]?) h
  simpa [hlt] using hat

theorem set_ne {elems : List Value} {i j : Nat} {c u v : Value} (hc : elems[i]? = some c)
    (hij : j ≠ i) (hu : u ≠ c) : elems.set j v ≠ elems.set i u := by
  intro h
  have hlt := (List.getElem?_eq_some_iff.mp hc).1
  have hat := congrArg (·[i]?) h
  simp only [List.getElem?_set_ne hij, List.getElem?_set_self hlt, hc, Option.some.injEq] at hat
  exact hu hat.symm

theorem set_ne_self {elems : List Value} {i : Nat} {c u : Value} (hc : elems[i]? = some c)
    (hu : u ≠ c) : elems ≠ elems.set i u := by
  intro h
  have hlt := (List.getElem?_eq_some_iff.mp hc).1
  have hat := congrArg (·[i]?) h
  simp only [List.getElem?_set_self hlt, hc, Option.some.injEq] at hat
  exact hu hat.symm

theorem assign_injective {s : PathStep} {w c u v : Value} (hc : s.child w = some c)
    (h : s.assign u w = s.assign v w) : u = v := by
  cases s with
  | key k =>
    cases w with
    | object fields =>
      have hget := congrArg (get? · k) (Value.object.inj h)
      simpa [get?_insert] using hget
    | _ => simp [PathStep.child] at hc
  | index i =>
    cases w with
    | array elems => exact set_injective hc (Value.array.inj h)
    | _ => simp [PathStep.child] at hc
  | element x n =>
    cases w with
    | array elems => exact set_injective hc (Value.array.inj h)
    | _ => simp [PathStep.child] at hc

/-- A straying segment leaves the value at the step as it was. -/
theorem assign_strays_ne {t : ConflictPathSegment} {s : PathStep} (hst : Strays t s) {w c u : Value}
    (hc : s.child w = some c) (hu : u ≠ c) (v : Value) : t.assign v w ≠ s.assign u w := by
  cases s with
  | key k =>
    cases w with
    | object fields =>
      intro h
      have hget : get? fields k = some u := by
        cases t with
        | key k' =>
          have hk : k ≠ k' := fun he => hst he.symm
          have := congrArg (get? · k) (Value.object.inj h)
          simpa [get?_insert, hk] using this
        | index i =>
          have := congrArg (get? · k) (Value.object.inj h)
          simpa [get?_insert] using this
        | id x =>
          have := congrArg (get? · k) (Value.object.inj h)
          simpa [get?_insert] using this
      exact hu (Option.some.inj (hget.symm.trans hc))
    | _ => simp [PathStep.child] at hc
  | index i =>
    cases w with
    | array elems =>
      intro h
      cases t with
      | key k => exact set_ne_self hc hu (Value.array.inj h)
      | index j => exact set_ne hc hst hu (Value.array.inj h)
      | id x => exact hst.elim
    | _ => simp [PathStep.child] at hc
  | element x n =>
    cases w with
    | array elems =>
      intro h
      cases t with
      | key k => exact set_ne_self hc hu (Value.array.inj h)
      | index j => exact hst.elim
      | id y =>
        have hne : (x, n) ≠ (y, 0) := by
          intro he
          obtain ⟨rfl, rfl⟩ := Prod.mk.inj he
          exact hst.elim (fun h => h rfl) fun h => h rfl
        have hplace := place_ne hne hc
        rw [place_zero] at hplace
        exact set_ne hc hplace.symm hu (Value.array.inj h)
    | _ => simp [PathStep.child] at hc

theorem setLast_ok {path : String} {t : ConflictPathSegment} {v w w' : Value}
    (h : setLast path t (some v) w = .ok w') : w' = t.assign v w := by
  cases t with
  | key k =>
    cases w <;> simp only [setLast, Except.ok.injEq, reduceCtorEq] at h
    exact h.symm
  | index i =>
    cases w <;> simp only [setLast, reduceCtorEq] at h
    split at h
    · exact (Except.ok.inj h).symm
    · cases h
  | id x =>
    cases w <;> simp only [setLast, reduceCtorEq] at h
    split at h
    · exact (Except.ok.inj h).symm
    · cases h

theorem setSegments_cons_ok {path : String} {t : ConflictPathSegment}
    {segments : List ConflictPathSegment} {new w w' : Value}
    (h : setSegments path (some new) (t :: segments) w = .ok w') :
    (segments = [] ∧ w' = t.assign new w) ∨
      ∃ c v, t.child w = some c ∧ setSegments path (some new) segments c = .ok v ∧
        w' = t.assign v w := by
  cases segments with
  | nil => exact Or.inl ⟨rfl, setLast_ok h⟩
  | cons t' segments =>
    rw [setSegments] at h
    split at h
    · cases h
    · rename_i c hc
      obtain ⟨v, hv, rfl⟩ := map_eq_ok h
      exact Or.inr ⟨c, v, hc, hv, rfl⟩

theorem setSegments_misread {path : String} {segments : List ConflictPathSegment}
    {steps : List PathStep} (hm : Misread segments steps) (hk : KeepsIds steps) {v v' old new : Value}
    (h : locate steps v = some old) (hne : old ≠ new)
    (hset : setSegments path (some new) segments v = .ok v') : v' ≠ overwrite new steps v := by
  induction hm generalizing v v' with
  | short s steps => cases hset
  | @stray t s hst segments steps =>
    obtain ⟨w, hw, hold⟩ := locate_cons h
    simp only [overwrite, hw]
    have hchanged := overwrite_ne hk.tail hold hne
    rcases setSegments_cons_ok hset with ⟨-, rfl⟩ | ⟨c, u, -, -, rfl⟩
    · exact assign_strays_ne hst hw hchanged new
    · exact assign_strays_ne hst hw hchanged u
  | @step s hs segments steps rest ih =>
    obtain ⟨w, hw, hold⟩ := locate_cons h
    simp only [overwrite, hw]
    intro he
    rcases setSegments_cons_ok hset with ⟨rfl, rfl⟩ | ⟨c, u, hc, hu, rfl⟩
    · rw [segment_assign hs] at he
      have hnew := assign_injective hw he
      cases rest with
      | short t steps => exact overwrite_cons_ne_new hk.tail hold new hnew.symm
    · rw [segment_child hs, hw] at hc
      cases hc
      rw [segment_assign hs] at he
      exact ih hk.tail hold hu (assign_injective hw he)

end AuruPm
