import AuruPm.FileRefs
import AuruPm.SnapshotValue
import Mathlib.Data.Finset.Max
import Mathlib.Data.List.Nodup

/-!
# The integrity gate of a Live Set

A clean merge is committed when the checks of `ableton/validate.rs` find nothing. They read the
`Id` attributes of a tree. The merge keys its arrays by the identity that the snapshot wrote beside
the attributes, which is the value of the first attribute named `id` in any case.
-/

namespace AuruPm

set_option autoImplicit false

open SortedAssoc

namespace Ableton

inductive IntegrityProblem where
  /-- Tags in document order. -/
  | duplicateModulationId (id : Nat) (tags : List String)
  | modulationCounterTooLow (nextPointeeId highestAllocated : Nat)
  | duplicateSiblingId (parent id : String)
  deriving DecidableEq

def IntegrityProblem.display : IntegrityProblem → String
  | .duplicateModulationId id tags =>
    "modulation identity " ++ toString id ++ " is claimed by " ++ toString tags.length ++
      " elements (" ++ ", ".intercalate tags ++ ")"
  | .modulationCounterTooLow next highest =>
    "the modulation counter is " ++ toString next ++ " but " ++ toString highest ++
      " is already in use; the next modulation added would collide"
  | .duplicateSiblingId parent id =>
    "two children of <" ++ parent ++ "> share Id \"" ++ id ++ "\", which version matching relies on"

/-- Whether an element draws its `Id` from the `NextPointeeId` counter. -/
def drawsFromPointeeCounter (tag : String) : Bool :=
  tag = "Pointee" || "Target".toList.isSuffixOf tag.toList ||
    "ControllerTargets.".toList.isPrefixOf tag.toList

/-- The identity that an element takes from the counter, if it takes one that can be read. -/
def pointeeId (element : XmlElement) : Option Nat :=
  if drawsFromPointeeCounter element.tag then
    (element.attributeValue "Id").bind fun id => parseUsize id.toList
  else none

def nextPointeeId (root : XmlElement) : Option Nat :=
  ((root.child "LiveSet").bind fun liveSet => liveSet.childValue "NextPointeeId").bind
    fun value => parseUsize value.toList

/-- The tags that claim each identity. -/
def claimed (root : XmlElement) : List (Nat × List String) :=
  tally pointeeId (fun element tags => tags.getD [] ++ [element.tag]) root.descendants []

def checkModulationIdentities (root : XmlElement) : List IntegrityProblem :=
  let duplicates := (claimed root).filterMap fun entry =>
    if 1 < entry.2.length then some (.duplicateModulationId entry.1 entry.2) else none
  match (claimed root).getLast? with
  | none => duplicates
  | some (highest, _) =>
    match nextPointeeId root with
    | none => duplicates
    | some next =>
      duplicates ++ if next ≤ highest then [.modulationCounterTooLow next highest] else []

/-- How often each `Id` attribute stands among the children of an element. -/
def seenIds (element : XmlElement) : List (String × Nat) :=
  tally (fun child : XmlElement => child.attributeValue "Id") (fun _ count => count.getD 0 + 1)
    element.childElements []

def checkSiblingIds (root : XmlElement) : List IntegrityProblem :=
  root.descendants.flatMap fun element => (seenIds element).filterMap fun entry =>
    if 1 < entry.2 then some (.duplicateSiblingId element.tag entry.1) else none

/-- Every problem that the checks find, nothing where the tree is consistent as far as they tell. -/
def validate (root : XmlElement) : List IntegrityProblem :=
  checkModulationIdentities root ++ checkSiblingIds root

/-! What the checks stand for. -/

/-- The identities that Live allocated from the counter, in document order. -/
def pointeeIds (root : XmlElement) : List Nat := root.descendants.filterMap pointeeId

/-- The identities that the merge keys the children of an element by. -/
def mergeIds (element : XmlElement) : List String :=
  element.childElements.filterMap fun child => idField child.toValue

/-- The `Id` attributes of the children of an element. -/
def idAttributes (element : XmlElement) : List String :=
  element.childElements.filterMap fun child => child.attributeValue "Id"

/-- What a set without problems is taken for. -/
structure Consistent (root : XmlElement) : Prop where
  pointees : (pointeeIds root).Nodup
  counter : ∀ next, nextPointeeId root = some next → ∀ id ∈ pointeeIds root, id < next
  siblings : ∀ element ∈ root.descendants, (mergeIds element).Nodup

/-- The tree has what the problem reports, where it reports it. -/
def Real (root : XmlElement) : IntegrityProblem → Prop
  | .duplicateModulationId id tags =>
    tags = (root.descendants.filter fun element => pointeeId element = some id).map XmlElement.tag ∧
      1 < tags.length
  | .modulationCounterTooLow next highest =>
    nextPointeeId root = some next ∧ highest ∈ pointeeIds root ∧ next ≤ highest
  | .duplicateSiblingId parent id =>
    ∃ element ∈ root.descendants, element.tag = parent ∧ 1 < (mergeIds element).count id

theorem idField_toValue (element : XmlElement) : idField element.toValue = element.id := by
  obtain ⟨tag, id, attributes, children⟩ := element
  have hget : ∀ fields : List (String × Value), (structValue fields).get "id" =
      get? (fields.foldl (fun m f => SortedAssoc.insert f.1 f.2 m) []) "id" := fun _ => rfl
  rw [idField, XmlElement.toValue, hget]
  cases id <;> by_cases ha : attributes.isEmpty <;> by_cases hc : children.isEmpty <;>
    simp [skipNone, skipEmpty, ha, hc, get?_insert, XmlElement.id, Value.asStr]

/-- The tags under an identity are those of the elements that take it. -/
theorem get?_claimed (root : XmlElement) (id : Nat) :
    get? (claimed root) id =
      if (root.descendants.filter fun element => pointeeId element = some id) = [] then none
      else some ((root.descendants.filter fun element => pointeeId element = some id).map
        XmlElement.tag) := by
  have hfold : ∀ (elements : List XmlElement) (tags : List String),
      elements.foldl (fun tags element => tags ++ [element.tag]) tags =
        tags ++ elements.map XmlElement.tag := by
    intro elements
    induction elements with
    | nil => simp
    | cons element elements ih => simp [ih]
  have h := get?_tally_nil pointeeId (fun tags element => tags ++ [XmlElement.tag element]) []
    root.descendants id
  rwa [hfold, List.nil_append] at h

theorem get?_seenIds (element : XmlElement) (id : String) :
    get? (seenIds element) id =
      if (idAttributes element).count id = 0 then none
      else some ((idAttributes element).count id) := by
  have hfold : ∀ (xs : List XmlElement) (n : Nat),
      xs.foldl (fun count _ => count + 1) n = n + xs.length := by
    intro xs
    induction xs with
    | nil => simp
    | cons x xs ih =>
      intro n
      rw [List.foldl_cons, ih, List.length_cons]
      omega
  have hcount : (idAttributes element).count id =
      (element.childElements.filter fun child => child.attributeValue "Id" = some id).length := by
    rw [idAttributes, List.count_filterMap, List.countP_eq_length_filter]
    congr 2
    funext child
    rw [Bool.eq_iff_iff, beq_iff_eq, decide_eq_true_eq]
  have h := get?_tally_nil (fun child : XmlElement => child.attributeValue "Id")
    (fun (count : Nat) _ => count + 1) 0 element.childElements id
  rw [hfold, Nat.zero_add, ← hcount] at h
  rw [seenIds, h, hcount]
  simp

theorem count_pointeeIds (root : XmlElement) (id : Nat) :
    (pointeeIds root).count id =
      (root.descendants.filter fun element => pointeeId element = some id).length := by
  rw [pointeeIds, List.count_filterMap, List.countP_eq_length_filter]
  congr 2
  funext element
  rw [Bool.eq_iff_iff, beq_iff_eq, decide_eq_true_eq]

theorem mem_claimed {root : XmlElement} {id : Nat} {tags : List String} :
    (id, tags) ∈ claimed root ↔ id ∈ pointeeIds root ∧
      tags = (root.descendants.filter fun element => pointeeId element = some id).map
        XmlElement.tag := by
  have hsorted : Sorted (claimed root) := sorted_tally _ List.Pairwise.nil
  have hget : (id, tags) ∈ claimed root ↔ get? (claimed root) id = some tags :=
    ⟨get?_of_mem hsorted, mem_of_get?⟩
  rw [hget, get?_claimed, ← List.count_pos_iff, count_pointeeIds, List.length_pos_iff]
  split
  · rename_i h
    simp [h]
  · rename_i h
    rw [Option.some_inj]
    exact ⟨fun htags => ⟨h, htags.symm⟩, fun ⟨_, htags⟩ => htags.symm⟩

theorem mem_seenIds {element : XmlElement} {id : String} {count : Nat} :
    (id, count) ∈ seenIds element ↔ 0 < count ∧ count = (idAttributes element).count id := by
  have hsorted : Sorted (seenIds element) := sorted_tally _ List.Pairwise.nil
  have hget : (id, count) ∈ seenIds element ↔ get? (seenIds element) id = some count :=
    ⟨get?_of_mem hsorted, mem_of_get?⟩
  rw [hget, get?_seenIds]
  split
  · simp
    omega
  · rw [Option.some_inj]
    omega

/-! The problems that each check finds. -/

theorem mem_checkModulationIdentities {root : XmlElement} {problem : IntegrityProblem} :
    problem ∈ checkModulationIdentities root ↔
      (∃ entry ∈ claimed root, 1 < entry.2.length ∧
        problem = .duplicateModulationId entry.1 entry.2) ∨
      ∃ last next, (claimed root).getLast? = some last ∧ nextPointeeId root = some next ∧
        next ≤ last.1 ∧ problem = .modulationCounterTooLow next last.1 := by
  have hduplicates : problem ∈ ((claimed root).filterMap fun entry =>
      if 1 < entry.2.length then some (IntegrityProblem.duplicateModulationId entry.1 entry.2)
      else none) ↔ ∃ entry ∈ claimed root, 1 < entry.2.length ∧
        problem = .duplicateModulationId entry.1 entry.2 := by
    simp [List.mem_filterMap, eq_comm]
  unfold checkModulationIdentities
  cases hlast : (claimed root).getLast? with
  | none =>
    simp only [hduplicates]
    simp
  | some last =>
    cases hnext : nextPointeeId root with
    | none =>
      simp only [hduplicates]
      simp
    | some next =>
      simp only [List.mem_append, hduplicates]
      split <;> simp_all

theorem mem_checkSiblingIds {root : XmlElement} {problem : IntegrityProblem} :
    problem ∈ checkSiblingIds root ↔
      ∃ element ∈ root.descendants, ∃ entry ∈ seenIds element, 1 < entry.2 ∧
        problem = .duplicateSiblingId element.tag entry.1 := by
  simp [checkSiblingIds, List.mem_flatMap, List.mem_filterMap, eq_comm]

theorem duplicateModulationId_mem_iff {root : XmlElement} {id : Nat} {tags : List String} :
    .duplicateModulationId id tags ∈ validate root ↔
      tags = (root.descendants.filter fun element => pointeeId element = some id).map
        XmlElement.tag ∧ 1 < tags.length := by
  rw [validate, List.mem_append, mem_checkModulationIdentities, mem_checkSiblingIds]
  constructor
  · rintro ((⟨⟨id', tags'⟩, hmem, hlength, h⟩ | ⟨_, _, _, _, _, h⟩) | ⟨_, _, _, _, _, h⟩) <;> cases h
    exact ⟨(mem_claimed.mp hmem).2, hlength⟩
  · intro ⟨htags, hlength⟩
    refine Or.inl (Or.inl ⟨(id, tags), mem_claimed.mpr ⟨?_, htags⟩, hlength, rfl⟩)
    rw [← List.count_pos_iff, count_pointeeIds]
    rw [htags, List.length_map] at hlength
    omega

theorem modulationCounterTooLow_mem_iff {root : XmlElement} {next highest : Nat} :
    .modulationCounterTooLow next highest ∈ validate root ↔
      nextPointeeId root = some next ∧ next ≤ highest ∧ highest ∈ pointeeIds root ∧
        ∀ id ∈ pointeeIds root, id ≤ highest := by
  have hsorted : Sorted (claimed root) := sorted_tally _ List.Pairwise.nil
  have hkey : ∀ id ∈ pointeeIds root, ∃ tags, (id, tags) ∈ claimed root := fun id hid =>
    ⟨_, mem_claimed.mpr ⟨hid, rfl⟩⟩
  rw [validate, List.mem_append, mem_checkModulationIdentities, mem_checkSiblingIds]
  constructor
  · rintro ((⟨_, _, _, h⟩ | ⟨last, next', hlast, hnext, hle, h⟩) | ⟨_, _, _, _, _, h⟩) <;> cases h
    refine ⟨hnext, hle, (mem_claimed.mp (List.mem_of_getLast? hlast)).1, fun id hid => ?_⟩
    obtain ⟨tags, htags⟩ := hkey id hid
    exact le_last hsorted hlast htags
  · intro ⟨hnext, hle, hmem, hmax⟩
    obtain ⟨tags, htags⟩ := hkey highest hmem
    obtain ⟨last, hlast⟩ : ∃ last, (claimed root).getLast? = some last := by
      cases h : (claimed root).getLast? with
      | none => simp [List.getLast?_eq_none_iff.mp h] at htags
      | some last => exact ⟨last, rfl⟩
    have heq : last.1 = highest := by
      have h₁ := hmax last.1 (mem_claimed.mp (List.mem_of_getLast? hlast)).1
      have h₂ := le_last hsorted hlast htags
      omega
    exact Or.inl (Or.inr ⟨last, next, hlast, hnext, heq ▸ hle, by rw [heq]⟩)

theorem duplicateSiblingId_mem_iff {root : XmlElement} {parent id : String} :
    .duplicateSiblingId parent id ∈ validate root ↔
      ∃ element ∈ root.descendants, element.tag = parent ∧ 1 < (idAttributes element).count id := by
  rw [validate, List.mem_append, mem_checkModulationIdentities, mem_checkSiblingIds]
  constructor
  · rintro ((⟨_, _, _, h⟩ | ⟨_, _, _, _, _, h⟩) | ⟨element, hmem, ⟨id', count⟩, hseen, hcount, h⟩) <;>
      cases h
    exact ⟨element, hmem, rfl, (mem_seenIds.mp hseen).2 ▸ hcount⟩
  · rintro ⟨element, hmem, rfl, hcount⟩
    exact Or.inr ⟨element, hmem, (id, _), mem_seenIds.mpr ⟨by omega, rfl⟩, hcount, rfl⟩

/-- What the checks ask for. -/
structure Checked (root : XmlElement) : Prop where
  pointees : (pointeeIds root).Nodup
  counter : ∀ next, nextPointeeId root = some next → ∀ id ∈ pointeeIds root, id < next
  siblings : ∀ element ∈ root.descendants, (idAttributes element).Nodup

theorem validate_eq_nil_iff (root : XmlElement) : validate root = [] ↔ Checked root := by
  rw [List.eq_nil_iff_forall_not_mem]
  constructor
  · intro h
    refine ⟨List.nodup_iff_count_le_one.mpr fun id => ?_, fun next hnext id hid => ?_,
      fun element helement => List.nodup_iff_count_le_one.mpr fun id => ?_⟩
    · by_contra hcount
      refine h (.duplicateModulationId id _) (duplicateModulationId_mem_iff.mpr ⟨rfl, ?_⟩)
      rw [List.length_map, ← count_pointeeIds]
      omega
    · by_contra hle
      obtain ⟨highest, hmem, hmax⟩ := (pointeeIds root).toFinset.exists_max_image (fun id => id)
        ⟨id, List.mem_toFinset.mpr hid⟩
      simp only [List.mem_toFinset] at hmem hmax
      have := hmax id hid
      exact h _ (modulationCounterTooLow_mem_iff.mpr ⟨hnext, by omega, hmem, hmax⟩)
    · by_contra hcount
      exact h (.duplicateSiblingId element.tag id)
        (duplicateSiblingId_mem_iff.mpr ⟨element, helement, rfl, by omega⟩)
  · intro h problem hproblem
    cases problem with
    | duplicateModulationId id tags =>
      obtain ⟨rfl, hlength⟩ := duplicateModulationId_mem_iff.mp hproblem
      have := List.nodup_iff_count_le_one.mp h.pointees id
      rw [List.length_map, ← count_pointeeIds] at hlength
      omega
    | modulationCounterTooLow next highest =>
      obtain ⟨hnext, hle, hmem, _⟩ := modulationCounterTooLow_mem_iff.mp hproblem
      have := h.counter next hnext highest hmem
      omega
    | duplicateSiblingId parent id =>
      obtain ⟨element, hmem, _, hcount⟩ := duplicateSiblingId_mem_iff.mp hproblem
      have := List.nodup_iff_count_le_one.mp (h.siblings element hmem) id
      omega

/-- What a problem is taken for is there, and a set without problems is consistent. -/
structure Exact (root : XmlElement) : Prop where
  sound : validate root = [] → Consistent root
  real : ∀ problem ∈ validate root, Real root problem

/-- Whether siblings share a merge identity. -/
def SharesMergeId (root : XmlElement) : Prop :=
  ∃ element ∈ root.descendants, ¬ (mergeIds element).Nodup

/-- The `Id` attributes show every merge identity that siblings share, and no other. -/
structure IdsTell (root : XmlElement) : Prop where
  shown : ∀ element ∈ root.descendants, ∀ id, 1 < (idAttributes element).count id →
    ∃ other ∈ root.descendants, other.tag = element.tag ∧ 1 < (mergeIds other).count id
  noticed : SharesMergeId root → ¬ Checked root

/-- Live writes every identity as `Id`, and then the gate is exact. -/
theorem idsTell_of_id_eq {root : XmlElement}
    (h : ∀ element ∈ root.descendants, ∀ child ∈ element.childElements,
      child.id = child.attributeValue "Id") : IdsTell root := by
  have heq : ∀ element ∈ root.descendants, mergeIds element = idAttributes element := by
    intro element helement
    refine List.filterMap_congr fun child hchild => ?_
    rw [idField_toValue, h element helement child hchild]
  refine ⟨fun element helement id hcount => ⟨element, helement, rfl, ?_⟩, ?_⟩
  · rwa [heq element helement]
  · intro ⟨element, helement, hshared⟩ hchecked
    exact hshared (heq element helement ▸ hchecked.siblings element helement)

/-- Two devices whose identity is written in lower case. -/
def lowerCaseDevices : XmlElement :=
  let device := XmlContent.element (.mk "Device" (some "1") [("id", "1")] [])
  .mk "Devices" none [] [device, device]

def lowerCaseSet : XmlElement :=
  .mk "Ableton" none [] [.element (.mk "LiveSet" none [] [.element lowerCaseDevices])]

end Ableton

end AuruPm
