import Mathlib.Data.List.Nodup
import Mathlib.Tactic.Common

/-!
# JSON texts

Values over any type of texts and of fractional numbers, the texts that spell a value when the
spellings of numbers and of quoted texts are given, and a recursive descent parser for them. The
parser reads the units of a text; all that it looks for is ASCII.
-/

set_option autoImplicit false

/-- A value, with its members in order. -/
inductive JsonValue (T D : Type) where
  | null
  | bool (flag : Bool)
  | int (number : Int64)
  | dec (number : D)
  | str (text : T)
  | arr (elements : List (JsonValue T D))
  | obj (members : List (T × JsonValue T D))

namespace JsonValue

variable {T D T₁ D₁ : Type}

/-- Induction on a value, with what holds of all elements and members. -/
@[elab_as_elim]
theorem induction {motive : JsonValue T D → Prop} (null : motive .null)
    (bool : ∀ flag, motive (.bool flag)) (int : ∀ number, motive (.int number))
    (dec : ∀ number, motive (.dec number)) (str : ∀ text, motive (.str text))
    (arr : ∀ elements : List (JsonValue T D), (∀ e ∈ elements, motive e) → motive (.arr elements))
    (obj : ∀ members : List (T × JsonValue T D), (∀ m ∈ members, motive m.2) → motive (.obj members))
    (v : JsonValue T D) : motive v := by
  refine @JsonValue.rec T D motive (fun es => ∀ e ∈ es, motive e) (fun ms => ∀ m ∈ ms, motive m.2)
    (fun m => motive m.2) null bool int dec str arr obj ?_ ?_ ?_ ?_ ?_ v
  · simp
  · intro e es he hes
    exact List.forall_mem_cons.mpr ⟨he, hes⟩
  · simp
  · intro m ms hm hms
    exact List.forall_mem_cons.mpr ⟨hm, hms⟩
  · intro _ _ hv
    exact hv

mutual
/-- Every value inside, itself included. -/
def subvalues : JsonValue T D → List (JsonValue T D)
  | .arr elements => .arr elements :: elementSubvalues elements
  | .obj members => .obj members :: memberSubvalues members
  | .null => [.null]
  | .bool flag => [.bool flag]
  | .int number => [.int number]
  | .dec number => [.dec number]
  | .str text => [.str text]
def elementSubvalues : List (JsonValue T D) → List (JsonValue T D)
  | [] => []
  | e :: es => e.subvalues ++ elementSubvalues es
def memberSubvalues : List (T × JsonValue T D) → List (JsonValue T D)
  | [] => []
  | (_, v) :: ms => v.subvalues ++ memberSubvalues ms
end

theorem elementSubvalues_eq (elements : List (JsonValue T D)) :
    elementSubvalues elements = elements.flatMap subvalues := by
  induction elements with
  | nil => rfl
  | cons e es ih => rw [elementSubvalues, ih, List.flatMap_cons]

theorem memberSubvalues_eq (members : List (T × JsonValue T D)) :
    memberSubvalues members = members.flatMap fun m => m.2.subvalues := by
  induction members with
  | nil => rfl
  | cons m ms ih => rw [memberSubvalues, ih, List.flatMap_cons]

/-- What holds of every value inside. -/
def Everywhere (P : JsonValue T D → Prop) (v : JsonValue T D) : Prop := ∀ w ∈ v.subvalues, P w

theorem everywhere_arr {P : JsonValue T D → Prop} {elements : List (JsonValue T D)} :
    Everywhere P (.arr elements) ↔ P (.arr elements) ∧ ∀ e ∈ elements, Everywhere P e := by
  simp only [Everywhere, subvalues, elementSubvalues_eq, List.forall_mem_cons, List.mem_flatMap]
  constructor
  · intro ⟨h, hall⟩
    exact ⟨h, fun e he w hw => hall w ⟨e, he, hw⟩⟩
  · intro ⟨h, hall⟩
    exact ⟨h, fun w ⟨e, he, hw⟩ => hall e he w hw⟩

theorem everywhere_obj {P : JsonValue T D → Prop} {members : List (T × JsonValue T D)} :
    Everywhere P (.obj members) ↔ P (.obj members) ∧ ∀ m ∈ members, Everywhere P m.2 := by
  simp only [Everywhere, subvalues, memberSubvalues_eq, List.forall_mem_cons, List.mem_flatMap]
  constructor
  · intro ⟨h, hall⟩
    exact ⟨h, fun m hm w hw => hall w ⟨m, hm, hw⟩⟩
  · intro ⟨h, hall⟩
    exact ⟨h, fun w ⟨m, hm, hw⟩ => hall m hm w hw⟩

/-- Objects whose names are distinct. -/
def DistinctNames : JsonValue T D → Prop
  | .obj members => (members.map Prod.fst).Nodup
  | _ => True

/-- No object of the value names a member twice. -/
abbrev Distinct (v : JsonValue T D) : Prop := Everywhere DistinctNames v

mutual
/-- The value with other texts and other fractional numbers. -/
def map (f : T → T₁) (g : D → D₁) : JsonValue T D → JsonValue T₁ D₁
  | .null => .null
  | .bool flag => .bool flag
  | .int number => .int number
  | .dec number => .dec (g number)
  | .str text => .str (f text)
  | .arr elements => .arr (mapElements f g elements)
  | .obj members => .obj (mapMembers f g members)
def mapElements (f : T → T₁) (g : D → D₁) : List (JsonValue T D) → List (JsonValue T₁ D₁)
  | [] => []
  | e :: es => e.map f g :: mapElements f g es
def mapMembers (f : T → T₁) (g : D → D₁) : List (T × JsonValue T D) → List (T₁ × JsonValue T₁ D₁)
  | [] => []
  | (name, v) :: ms => (f name, v.map f g) :: mapMembers f g ms
end

theorem mapElements_eq (f : T → T₁) (g : D → D₁) (elements : List (JsonValue T D)) :
    mapElements f g elements = elements.map (map f g) := by
  induction elements with
  | nil => rfl
  | cons e es ih => rw [mapElements, ih, List.map_cons]

theorem mapMembers_eq (f : T → T₁) (g : D → D₁) (members : List (T × JsonValue T D)) :
    mapMembers f g members = members.map fun m => (f m.1, m.2.map f g) := by
  induction members with
  | nil => rfl
  | cons m ms ih => rw [mapMembers, ih, List.map_cons]

theorem map_id (v : JsonValue T D) : v.map id id = v := by
  induction v using induction with
  | arr elements ih =>
    rw [map, mapElements_eq, List.map_congr_left ih, List.map_id']
  | obj members ih =>
    rw [map, mapMembers_eq, List.map_congr_left fun m hm => by rw [ih m hm]]
    simp
  | _ => rfl

mutual
/-- The value with every object put through `f` once its members are. -/
def rebuild (f : List (T × JsonValue T D) → List (T × JsonValue T D)) :
    JsonValue T D → JsonValue T D
  | .arr elements => .arr (rebuildElements f elements)
  | .obj members => .obj (f (rebuildMembers f members))
  | .null => .null
  | .bool flag => .bool flag
  | .int number => .int number
  | .dec number => .dec number
  | .str text => .str text
def rebuildElements (f : List (T × JsonValue T D) → List (T × JsonValue T D)) :
    List (JsonValue T D) → List (JsonValue T D)
  | [] => []
  | e :: es => e.rebuild f :: rebuildElements f es
def rebuildMembers (f : List (T × JsonValue T D) → List (T × JsonValue T D)) :
    List (T × JsonValue T D) → List (T × JsonValue T D)
  | [] => []
  | (name, v) :: ms => (name, v.rebuild f) :: rebuildMembers f ms
end

theorem rebuildElements_eq (f : List (T × JsonValue T D) → List (T × JsonValue T D))
    (elements : List (JsonValue T D)) : rebuildElements f elements = elements.map (rebuild f) := by
  induction elements with
  | nil => rfl
  | cons e es ih => rw [rebuildElements, ih, List.map_cons]

theorem rebuildMembers_eq (f : List (T × JsonValue T D) → List (T × JsonValue T D))
    (members : List (T × JsonValue T D)) :
    rebuildMembers f members = members.map fun m => (m.1, m.2.rebuild f) := by
  induction members with
  | nil => rfl
  | cons m ms ih => rw [rebuildMembers, ih, List.map_cons]

theorem subvalues_map (f : T → T₁) (g : D → D₁) (v : JsonValue T D) :
    (v.map f g).subvalues = v.subvalues.map (map f g) := by
  induction v using induction with
  | arr elements ih =>
    rw [map, subvalues, subvalues, List.map_cons, map, mapElements_eq, elementSubvalues_eq,
      elementSubvalues_eq, List.flatMap_map, List.map_flatMap, List.flatMap_congr ih]
  | obj members ih =>
    rw [map, subvalues, subvalues, List.map_cons, map, mapMembers_eq, memberSubvalues_eq,
      memberSubvalues_eq, List.flatMap_map, List.map_flatMap, List.flatMap_congr ih]
  | _ => rfl

theorem everywhere_map {P : JsonValue T₁ D₁ → Prop} {f : T → T₁} {g : D → D₁}
    {v : JsonValue T D} :
    Everywhere P (v.map f g) ↔ Everywhere (fun w => P (w.map f g)) v := by
  rw [Everywhere, subvalues_map, List.forall_mem_map]
  rfl

theorem distinctNames_map {f : T → T₁} (hf : f.Injective) (g : D → D₁) (v : JsonValue T D) :
    DistinctNames (v.map f g) ↔ DistinctNames v := by
  cases v with
  | obj members =>
    simp only [map, DistinctNames, mapMembers_eq, List.map_map]
    rw [show (Prod.fst ∘ fun m : T × JsonValue T D => (f m.1, m.2.map f g)) = f ∘ Prod.fst from rfl,
      ← List.map_map, List.nodup_map_iff hf]
  | _ => rfl

theorem distinct_map {f : T → T₁} (hf : f.Injective) (g : D → D₁) {v : JsonValue T D} :
    (v.map f g).Distinct ↔ v.Distinct := by
  simp only [Distinct, everywhere_map, distinctNames_map hf]

/-- A value without fractional numbers. -/
abbrev Integral (v : JsonValue T D) : Prop := Everywhere (fun w => ∀ number, w ≠ .dec number) v

/-- What is known of the leaves and survives another choice of members is known afterwards. -/
theorem everywhere_rebuild {P : JsonValue T D → Prop}
    {F : List (T × JsonValue T D) → List (T × JsonValue T D)} (harr : ∀ es, P (.arr es))
    (hobj : ∀ ms, P (.obj ms)) (hF : ∀ ms, ∀ m ∈ F ms, m ∈ ms)
    {v : JsonValue T D} (h : Everywhere P v) : Everywhere P (v.rebuild F) := by
  induction v using induction with
  | arr elements ih =>
    rw [everywhere_arr] at h
    rw [rebuild, rebuildElements_eq, everywhere_arr]
    refine ⟨harr _, List.forall_mem_map.mpr fun e he => ih e he (h.2 e he)⟩
  | obj members ih =>
    rw [everywhere_obj] at h
    rw [rebuild, rebuildMembers_eq, everywhere_obj]
    refine ⟨hobj _, fun m hm => ?_⟩
    obtain ⟨m', hm', rfl⟩ := List.mem_map.mp (hF _ m hm)
    exact ih m' hm' (h.2 m' hm')
  | _ => exact h

/-- What is known of the leaves afterwards was known before, when no member was dropped. -/
theorem everywhere_of_rebuild {P : JsonValue T D → Prop}
    {F : List (T × JsonValue T D) → List (T × JsonValue T D)} (harr : ∀ es, P (.arr es))
    (hobj : ∀ ms, P (.obj ms)) (hF : ∀ ms, ∀ m ∈ ms, m ∈ F ms)
    {v : JsonValue T D} (h : Everywhere P (v.rebuild F)) : Everywhere P v := by
  induction v using induction with
  | arr elements ih =>
    rw [rebuild, rebuildElements_eq, everywhere_arr] at h
    exact everywhere_arr.mpr ⟨harr _, fun e he => ih e he (h.2 _ (List.mem_map_of_mem he))⟩
  | obj members ih =>
    rw [rebuild, rebuildMembers_eq, everywhere_obj] at h
    refine everywhere_obj.mpr ⟨hobj _, fun m hm => ih m hm ?_⟩
    exact h.2 (m.1, m.2.rebuild F) (hF _ _ (List.mem_map_of_mem hm))
  | _ => exact h

/-- Another order of members names them as before. -/
theorem distinct_rebuild {F : List (T × JsonValue T D) → List (T × JsonValue T D)} {v : JsonValue T D}
    (hF : ∀ ms : List (T × JsonValue T D), (ms.map Prod.fst).Nodup → (F ms).Perm ms)
    (hv : v.Distinct) : (v.rebuild F).Distinct := by
  induction v using induction with
  | arr elements ih =>
    rw [Distinct, everywhere_arr] at hv
    rw [rebuild, rebuildElements_eq, Distinct, everywhere_arr]
    exact ⟨trivial, List.forall_mem_map.mpr fun e he => ih e he (hv.2 e he)⟩
  | obj members ih =>
    rw [Distinct, everywhere_obj] at hv
    rw [rebuild, rebuildMembers_eq, Distinct, everywhere_obj]
    have hnames : ((members.map fun m => (m.1, m.2.rebuild F)).map Prod.fst).Nodup := by
      rw [List.map_map]
      exact hv.1
    have hperm := hF _ hnames
    refine ⟨(hperm.map Prod.fst).nodup_iff.mpr hnames, fun m hm => ?_⟩
    obtain ⟨m', hm', rfl⟩ := List.mem_map.mp (hperm.mem_iff.mp hm)
    exact ih m' hm' (hv.2 m' hm')
  | _ => exact hv

/-- A second choice of members changes nothing where the first made the same. -/
theorem rebuild_rebuild {F : List (T × JsonValue T D) → List (T × JsonValue T D)}
    (hmap : ∀ (f : JsonValue T D → JsonValue T D) (ms : List (T × JsonValue T D)),
      F (ms.map fun m => (m.1, f m.2)) = (F ms).map fun m => (m.1, f m.2))
    (hF : ∀ ms, F (F ms) = F ms) (v : JsonValue T D) : (v.rebuild F).rebuild F = v.rebuild F := by
  induction v using induction with
  | arr elements ih =>
    rw [rebuild, rebuild, rebuildElements_eq, rebuildElements_eq, List.map_map]
    exact congrArg arr (List.map_congr_left ih)
  | obj members ih =>
    rw [rebuild, rebuild, rebuildMembers_eq, rebuildMembers_eq, ← hmap, hF, List.map_map]
    refine congrArg (fun ms => obj (F ms)) (List.map_congr_left fun m hm => ?_)
    exact Prod.ext rfl (ih m hm)
  | _ => rfl

/-- A choice of members that keeps every object of the value keeps the value. -/
theorem rebuild_eq_self {F : List (T × JsonValue T D) → List (T × JsonValue T D)}
    {v : JsonValue T D} (hF : ∀ ms : List (T × JsonValue T D), (ms.map Prod.fst).Nodup → F ms = ms)
    (hv : v.Distinct) : v.rebuild F = v := by
  induction v using induction with
  | arr elements ih =>
    rw [Distinct, everywhere_arr] at hv
    rw [rebuild, rebuildElements_eq, List.map_congr_left fun e he => ih e he (hv.2 e he),
      List.map_id']
  | obj members ih =>
    rw [Distinct, everywhere_obj] at hv
    have hmembers : rebuildMembers F members = members := by
      rw [rebuildMembers_eq, List.map_congr_left fun m hm => by rw [ih m hm (hv.2 m hm)]]
      simp
    rw [rebuild, hmembers, hF members hv.1]
  | _ => rfl

/-- Changing the texts commutes with a choice of members that does. -/
theorem rebuild_map {f : T → T₁} {g : D → D₁}
    {F : List (T₁ × JsonValue T₁ D₁) → List (T₁ × JsonValue T₁ D₁)}
    {G : List (T × JsonValue T D) → List (T × JsonValue T D)}
    (h : ∀ ms : List (T × JsonValue T D), (ms.map Prod.fst).Nodup →
      F (ms.map fun m => (f m.1, m.2.map f g)) = (G ms).map fun m => (f m.1, m.2.map f g))
    {v : JsonValue T D} (hv : v.Distinct) : (v.map f g).rebuild F = (v.rebuild G).map f g := by
  induction v using induction with
  | arr elements ih =>
    rw [Distinct, everywhere_arr] at hv
    rw [map, rebuild, rebuild, map, mapElements_eq, mapElements_eq, rebuildElements_eq,
      rebuildElements_eq, List.map_map, List.map_map]
    exact congrArg arr (List.map_congr_left fun e he => ih e he (hv.2 e he))
  | obj members ih =>
    rw [Distinct, everywhere_obj] at hv
    rw [map, rebuild, rebuild, map, mapMembers_eq, mapMembers_eq, rebuildMembers_eq,
      rebuildMembers_eq, List.map_map]
    have hnames : ((members.map fun m => (m.1, m.2.rebuild G)).map Prod.fst).Nodup := by
      rw [List.map_map]
      exact hv.1
    rw [← h _ hnames, List.map_map]
    refine congrArg (fun ms => obj (F ms)) (List.map_congr_left fun m hm => ?_)
    exact Prod.ext rfl (ih m hm (hv.2 m hm))
  | _ => rfl

end JsonValue
