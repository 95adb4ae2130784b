import AuruPm.RewriteAgreement
import AuruPm.SnapshotValue

/-!
# What rewriting changes

Rewriting writes three children of each reference that the plan matches, and nothing else. A
written reference is looked up again by its new path. So a second pass changes nothing unless the
plan sends that path somewhere else.
-/

namespace AuruPm

set_option autoImplicit false

open SortedAssoc

namespace XmlElement

/-! Writing a value twice. -/

theorem exists_first_setFirst (name value : String) (contents : List XmlContent) :
    ∃ e : XmlElement, ((setFirst name value contents).filterMap XmlContent.element?).find?
      (fun child => child.tag = name) = some e ∧ e.withAttribute "Value" value = e := by
  induction contents with
  | nil =>
    refine ⟨.mk name none [("Value", value)] [], ?_, ?_⟩
    · simp [setFirst, XmlContent.element?, tag]
    · simp [withAttribute, SortedAssoc.insert]
  | cons content rest ih =>
    cases content with
    | element e =>
      unfold setFirst
      split
      · rename_i htag
        refine ⟨e.withAttribute "Value" value, ?_, ?_⟩
        · rw [filterMap_element, List.find?_cons_of_pos]
          rw [decide_eq_true_iff, tag_withAttribute]
          exact htag
        · cases e
          simp only [withAttribute, insert_insert]
      · rename_i htag
        rw [filterMap_element, List.find?_cons_of_neg (by simpa using htag)]
        exact ih
    | text _ => exact ih
    | cdata _ => exact ih
    | comment _ => exact ih

theorem setFirst_eq_self {name value : String} {contents : List XmlContent} {e : XmlElement}
    (hfirst : (contents.filterMap XmlContent.element?).find? (fun child => child.tag = name) = some e)
    (he : e.withAttribute "Value" value = e) : setFirst name value contents = contents := by
  induction contents with
  | nil => cases hfirst
  | cons content rest ih =>
    cases content with
    | element e' =>
      rw [filterMap_element] at hfirst
      unfold setFirst
      by_cases htag : e'.tag = name
      · rw [List.find?_cons_of_pos (by simpa using htag), Option.some.injEq] at hfirst
        rw [if_pos htag, hfirst, he]
      · rw [List.find?_cons_of_neg (by simpa using htag)] at hfirst
        rw [if_neg htag, ih hfirst]
    | text _ => exact congrArg _ (ih hfirst)
    | cdata _ => exact congrArg _ (ih hfirst)
    | comment _ => exact congrArg _ (ih hfirst)

/-- The first child of this name has this value, as a write leaves it. -/
def Written (name value : String) (e : XmlElement) : Prop :=
  ∃ child, e.child name = some child ∧ child.withAttribute "Value" value = child

theorem written_setChildValue (name value : String) (e : XmlElement) :
    (e.setChildValue name value).Written name value := by
  cases e with
  | mk tag id attributes contents => exact exists_first_setFirst name value contents

theorem Written.other {name value other : String} {e : XmlElement} (h : e.Written name value)
    (hne : name ≠ other) (value' : String) : (e.setChildValue other value').Written name value := by
  unfold Written
  rw [child_setChildValue_of_ne hne]
  exact h

theorem Written.eq_self {name value : String} {e : XmlElement} (h : e.Written name value) :
    e.setChildValue name value = e := by
  obtain ⟨child, hchild, hvalue⟩ := h
  cases e with
  | mk tag id attributes contents =>
    have hsame : setFirst name value contents = contents := setFirst_eq_self hchild hvalue
    rw [setChildValue, hsame]

end XmlElement

namespace Ableton

/-! Each reference by itself. -/

/-- What rewriting makes of a reference. -/
def rewrittenRef (plan : VendorPlan) (projectRoot : HostPath) (e : XmlElement) : XmlElement :=
  (outcome plan e).write projectRoot e

theorem fst_rewriteOne (plan : VendorPlan) (projectRoot : HostPath) (e : XmlElement)
    (report : RewriteReport) :
    (rewriteOne plan projectRoot e report).1 = rewrittenRef plan projectRoot e := by
  rw [rewriteOne_eq, rewrittenRef]

section Visit
variable {S : Type} {visit : XmlElement → S → XmlElement × S} {f : XmlElement → XmlElement}

theorem visitAll_fst (hvisit : ∀ e s, (visit e s).1 = f e) (es : List XmlElement) (s : S) :
    (visitAll visit es s).1 = es.map f := by
  induction es generalizing s with
  | nil => rfl
  | cons e es ih => rw [visitAll, ih, hvisit, List.map_cons]

mutual
/-- A walk leaves an element as it is when it does so with each reference. -/
theorem visitFileRefs_eq_self_iff (hvisit : ∀ e s, (visit e s).1 = f e) (e : XmlElement) (s : S) :
    (visitFileRefs visit e s).1 = e ↔ ∀ r ∈ fileRefs e, f r = r := by
  cases e with
  | mk tag id attributes children =>
    unfold visitFileRefs fileRefs
    split
    · rw [hvisit]
      simp
    · have hchildren := visitContents_eq_self_iff hvisit children s
      simp only [XmlElement.mk.injEq, true_and]
      exact hchildren
theorem visitContents_eq_self_iff (hvisit : ∀ e s, (visit e s).1 = f e)
    (contents : List XmlContent) (s : S) :
    (visitContents visit contents s).1 = contents ↔ ∀ r ∈ contentFileRefs contents, f r = r := by
  cases contents with
  | nil => simp [visitContents, contentFileRefs]
  | cons content rest =>
    cases content with
    | element e =>
      have hfirst := visitFileRefs_eq_self_iff hvisit e s
      have hrest := visitContents_eq_self_iff hvisit rest (visitFileRefs visit e s).2
      simp only [visitContents, contentFileRefs, List.cons.injEq, XmlContent.element.injEq,
        List.forall_mem_append, hfirst, hrest]
    | text _ =>
      have hrest := visitContents_eq_self_iff hvisit rest s
      simp only [visitContents, contentFileRefs, List.cons.injEq, true_and, hrest]
    | cdata _ =>
      have hrest := visitContents_eq_self_iff hvisit rest s
      simp only [visitContents, contentFileRefs, List.cons.injEq, true_and, hrest]
    | comment _ =>
      have hrest := visitContents_eq_self_iff hvisit rest s
      simp only [visitContents, contentFileRefs, List.cons.injEq, true_and, hrest]
end

end Visit

theorem tag_rewrittenRef (plan : VendorPlan) (projectRoot : HostPath) (e : XmlElement) :
    (rewrittenRef plan projectRoot e).tag = e.tag := by
  unfold rewrittenRef Outcome.write
  split
  · simp [writeReference]
  · rfl

/-- The references of a rewritten set are those of the set, each rewritten. -/
theorem fileRefs_rewriteFileRefs (root : XmlElement) (plan : VendorPlan) (projectRoot : HostPath) :
    fileRefs (rewriteFileRefs root plan projectRoot).1 =
      (fileRefs root).map (rewrittenRef plan projectRoot) := by
  have htag : ∀ e s, (rewriteOne plan projectRoot e s).1.tag = e.tag := fun e s => by
    rw [fst_rewriteOne, tag_rewrittenRef]
  obtain ⟨hrefs, -⟩ := visitFileRefs_spec htag root {}
  have hall := visitAll_fst (fst_rewriteOne plan projectRoot) (fileRefs root) {}
  rw [hrefs] at hall
  exact hall

/-! A second pass. -/

/-- The plan sends this reference to this place. -/
def Matches (plan : VendorPlan) (e : XmlElement) (destination : String) : Prop :=
  lookedUp e ≠ "" ∧ rawPathType e ≠ installationPathType ∧ hasLivePack e = false ∧
    plan.destinationFor (lookedUp e) = some destination

/-- The text that a reference to this place is looked up by. -/
def writtenLookup (projectRoot : HostPath) (destination : String) : String :=
  if destination = "" then absolutePathFor projectRoot destination else destination

theorem writtenLookup_ne (projectRoot : HostPath) (destination : String) :
    writtenLookup projectRoot destination ≠ "" := by
  unfold writtenLookup
  split
  · intro heq
    have hlist := congrArg String.toList heq
    rw [absolutePathFor, String.toList_append, String.toList_ofList] at hlist
    have hpath := (List.append_eq_nil_iff.mp hlist).1
    split at hpath
    · rename_i hlast
      rw [hpath] at hlast
      cases hlast
    · exact List.cons_ne_nil _ _ (List.append_eq_nil_iff.mp hpath).2
  · assumption

theorem lookedUp_writeReference (projectRoot : HostPath) (destination : String) (e : XmlElement) :
    lookedUp (writeReference e destination projectRoot) = writtenLookup projectRoot destination := by
  have hpoints := writeReference_pointsAt projectRoot destination e
  rw [lookedUp, flatRelative, flatAbsolute, hpoints.relative, hpoints.absolute]
  rfl

theorem writeReference_again (projectRoot : HostPath) (destination : String) (e : XmlElement) :
    writeReference (writeReference e destination projectRoot) destination projectRoot =
      writeReference e destination projectRoot := by
  have htype : (writeReference e destination projectRoot).Written "RelativePathType"
      (toString projectFolderPathType) :=
    ((XmlElement.written_setChildValue _ _ _).other (by decide) _).other (by decide) _
  have hrelative : (writeReference e destination projectRoot).Written "RelativePath" destination :=
    (XmlElement.written_setChildValue _ _ _).other (by decide) _
  have habsolute : (writeReference e destination projectRoot).Written "Path"
      (absolutePathFor projectRoot destination) := XmlElement.written_setChildValue _ _ _
  have hagain : ∀ e' : XmlElement, writeReference e' destination projectRoot =
      ((e'.setChildValue "RelativePathType" (toString projectFolderPathType)).setChildValue
        "RelativePath" destination).setChildValue "Path" (absolutePathFor projectRoot destination) :=
    fun _ => rfl
  rw [hagain (writeReference e destination projectRoot), htype.eq_self, hrelative.eq_self,
    habsolute.eq_self]

/-- Written to one place and then to another, the reference is as before if they are the same. -/
theorem writeReference_eq_iff (projectRoot : HostPath) (destination other : String)
    (e : XmlElement) :
    writeReference (writeReference e destination projectRoot) other projectRoot =
      writeReference e destination projectRoot ↔ other = destination := by
  constructor
  · intro h
    have hother := (writeReference_pointsAt projectRoot other
      (writeReference e destination projectRoot)).relative
    rw [h, (writeReference_pointsAt projectRoot destination e).relative] at hother
    exact (Option.some.inj hother).symm
  · rintro rfl
    exact writeReference_again projectRoot other e

theorem rewrittenRef_of_matches {plan : VendorPlan} {e : XmlElement} {destination : String}
    (h : Matches plan e destination) (projectRoot : HostPath) :
    rewrittenRef plan projectRoot e = writeReference e destination projectRoot := by
  rw [rewrittenRef, outcome_eq_rewritten_iff.mpr h, Outcome.write]

theorem rewrittenRef_of_not {plan : VendorPlan} {e : XmlElement}
    (h : ∀ destination, ¬ Matches plan e destination) (projectRoot : HostPath) :
    rewrittenRef plan projectRoot e = e := by
  unfold rewrittenRef Outcome.write
  split
  · rename_i destination hfound
    exact absurd (outcome_eq_rewritten_iff.mp hfound) (h destination)
  · rfl

/-- A written reference is matched if there is a place for its new path. -/
theorem matches_writeReference_iff {plan : VendorPlan} {e : XmlElement} {destination : String}
    (hpack : hasLivePack e = false) (projectRoot : HostPath) (other : String) :
    Matches plan (writeReference e destination projectRoot) other ↔
      plan.destinationFor (writtenLookup projectRoot destination) = some other := by
  have htype : rawPathType (writeReference e destination projectRoot) ≠ installationPathType := by
    rw [(writeReference_pointsAt projectRoot destination e).rawPathType]
    decide
  have hlive : hasLivePack (writeReference e destination projectRoot) = false := by
    rw [← hpack, hasLivePack, hasLivePack, XmlElement.childValue,
      child_writeReference (by decide), XmlElement.childValue]
  rw [Matches, lookedUp_writeReference]
  exact ⟨fun h => h.2.2.2, fun h => ⟨writtenLookup_ne projectRoot destination, htype, hlive, h⟩⟩

theorem rewrittenRef_again_iff (plan : VendorPlan) (projectRoot : HostPath) (e : XmlElement) :
    rewrittenRef plan projectRoot (rewrittenRef plan projectRoot e) =
        rewrittenRef plan projectRoot e ↔
      ∀ destination, Matches plan e destination → ∀ other,
        plan.destinationFor (writtenLookup projectRoot destination) = some other →
          other = destination := by
  by_cases hmatch : ∃ destination, Matches plan e destination
  · obtain ⟨destination, hmatch⟩ := hmatch
    have hunique : ∀ d, Matches plan e d → d = destination := fun d hd =>
      Option.some.inj (hd.2.2.2.symm.trans hmatch.2.2.2)
    rw [rewrittenRef_of_matches hmatch]
    constructor
    · intro hsame d hd other hother
      obtain rfl := hunique d hd
      have hnext := (matches_writeReference_iff hmatch.2.2.1 projectRoot other).mpr hother
      rw [rewrittenRef_of_matches hnext] at hsame
      exact (writeReference_eq_iff projectRoot d other e).mp hsame
    · intro hcond
      by_cases hnext : ∃ other, Matches plan (writeReference e destination projectRoot) other
      · obtain ⟨other, hnext⟩ := hnext
        rw [rewrittenRef_of_matches hnext, writeReference_eq_iff]
        exact hcond destination hmatch other
          ((matches_writeReference_iff hmatch.2.2.1 projectRoot other).mp hnext)
      · exact rewrittenRef_of_not (not_exists.mp hnext) projectRoot
  · have hnot := not_exists.mp hmatch
    rw [rewrittenRef_of_not hnot, rewrittenRef_of_not hnot]
    exact ⟨fun _ d hd => absurd hd (hnot d), fun _ => rfl⟩

/-- A second pass changes nothing if and only if the plan has no other place for a path that it
has sent a reference to. -/
theorem rewriteFileRefs_again_iff (root : XmlElement) (plan : VendorPlan)
    (projectRoot : HostPath) :
    (rewriteFileRefs (rewriteFileRefs root plan projectRoot).1 plan projectRoot).1 =
        (rewriteFileRefs root plan projectRoot).1 ↔
      ∀ e ∈ fileRefs root, ∀ destination, Matches plan e destination → ∀ other,
        plan.destinationFor (writtenLookup projectRoot destination) = some other →
          other = destination := by
  have hself := visitFileRefs_eq_self_iff (fst_rewriteOne plan projectRoot)
    (rewriteFileRefs root plan projectRoot).1 {}
  rw [fileRefs_rewriteFileRefs, List.forall_mem_map] at hself
  refine hself.trans (forall₂_congr fun e _ => ?_)
  exact rewrittenRef_again_iff plan projectRoot e

/-- The path of a gathered file is the origin of another one. -/
def chainedPlan : VendorPlan :=
  .new [("../../loops/break.wav", "Samples/Imported/break.wav"),
    ("Samples/Imported/break.wav", "Samples/Imported/break 2.wav")]

theorem chained_moves_again :
    (rewriteFileRefs (rewriteFileRefs (setWith flatRef) chainedPlan (.ofText "/p")).1 chainedPlan
      (.ofText "/p")).1 ≠ (rewriteFileRefs (setWith flatRef) chainedPlan (.ofText "/p")).1 := by
  intro h
  have hpaths := congrArg (fun root => (fileRefs root).map fun e => e.childValue "RelativePath") h
  exact absurd hpaths (by decide +kernel)

/-! The frame. -/

def writtenNames : List String := ["RelativePathType", "RelativePath", "Path"]

/-- A child as a write leaves it: as it was, or of one of the names and with another value. -/
inductive KeptChild : XmlContent → XmlContent → Prop
  | same (content : XmlContent) : KeptChild content content
  | value {e : XmlElement} (h : e.tag ∈ writtenNames) (value : String) :
      KeptChild (.element e) (.element (e.withAttribute "Value" value))

/-- A child of one of the names that holds a value and nothing else. -/
def NewChild (content : XmlContent) : Prop :=
  ∃ name ∈ writtenNames, ∃ value, content = .element (.mk name none [("Value", value)] [])

/-- The children in their order, and new ones after them. -/
inductive KeptChildren : List XmlContent → List XmlContent → Prop
  | nil {added : List XmlContent} (h : ∀ content ∈ added, NewChild content) : KeptChildren [] added
  | cons {content content' : XmlContent} {rest rest' : List XmlContent}
      (h : KeptChild content content') (hrest : KeptChildren rest rest') :
      KeptChildren (content :: rest) (content' :: rest')

/-- A reference as rewriting leaves it. -/
structure KeptRef (e e' : XmlElement) : Prop where
  tag : e'.tag = e.tag
  id : e'.id = e.id
  attributes : e'.attributes = e.attributes
  children : KeptChildren e.children e'.children

theorem KeptChild.trans {c c' c'' : XmlContent} (h : KeptChild c c') (h' : KeptChild c' c'') :
    KeptChild c c'' := by
  cases h with
  | same => exact h'
  | @value e htag value =>
    cases h' with
    | same => exact .value htag value
    | value _ value' =>
      have hlast : (e.withAttribute "Value" value).withAttribute "Value" value' =
          e.withAttribute "Value" value' := by
        cases e
        simp only [XmlElement.withAttribute, insert_insert]
      rw [hlast]
      exact .value htag value'

theorem NewChild.kept {c c' : XmlContent} (h : NewChild c) (h' : KeptChild c c') : NewChild c' := by
  obtain ⟨name, hname, value, rfl⟩ := h
  cases h' with
  | same => exact ⟨name, hname, value, rfl⟩
  | value _ value' => exact ⟨name, hname, value', by simp [XmlElement.withAttribute, SortedAssoc.insert]⟩

theorem KeptChildren.added {before after : List XmlContent} (h : KeptChildren before after)
    (hnew : ∀ content ∈ before, NewChild content) : ∀ content ∈ after, NewChild content := by
  induction h with
  | nil h => exact h
  | cons hc _ ih =>
    obtain ⟨hfirst, hrest⟩ := List.forall_mem_cons.mp hnew
    exact List.forall_mem_cons.mpr ⟨hfirst.kept hc, ih hrest⟩

theorem KeptChildren.trans {before middle after : List XmlContent}
    (h : KeptChildren before middle) (h' : KeptChildren middle after) :
    KeptChildren before after := by
  induction h generalizing after with
  | nil hnew => exact .nil (h'.added hnew)
  | cons hc _ ih =>
    cases h' with
    | cons hc' hrest => exact .cons (hc.trans hc') (ih hrest)

theorem KeptChildren.refl (contents : List XmlContent) : KeptChildren contents contents := by
  induction contents with
  | nil => exact .nil (by simp)
  | cons content rest ih => exact .cons (.same content) ih

theorem kept_setFirst {name : String} (hname : name ∈ writtenNames) (value : String)
    (contents : List XmlContent) :
    KeptChildren contents (XmlElement.setFirst name value contents) := by
  induction contents with
  | nil => exact .nil fun c hc => ⟨name, hname, value, List.mem_singleton.mp hc⟩
  | cons content rest ih =>
    cases content with
    | element e =>
      unfold XmlElement.setFirst
      split
      · rename_i htag
        exact .cons (.value (htag ▸ hname) value) (.refl rest)
      · exact .cons (.same _) ih
    | text _ => exact .cons (.same _) ih
    | cdata _ => exact .cons (.same _) ih
    | comment _ => exact .cons (.same _) ih

theorem KeptRef.trans {e e' e'' : XmlElement} (h : KeptRef e e') (h' : KeptRef e' e'') :
    KeptRef e e'' :=
  ⟨h'.tag.trans h.tag, h'.id.trans h.id, h'.attributes.trans h.attributes,
    h.children.trans h'.children⟩

theorem kept_setChildValue {name : String} (hname : name ∈ writtenNames) (value : String)
    (e : XmlElement) : KeptRef e (e.setChildValue name value) := by
  cases e with
  | mk tag id attributes contents => exact ⟨rfl, rfl, rfl, kept_setFirst hname value contents⟩

theorem kept_writeReference (e : XmlElement) (destination : String) (projectRoot : HostPath) :
    KeptRef e (writeReference e destination projectRoot) :=
  ((kept_setChildValue (by decide) _ e).trans (kept_setChildValue (by decide) _ _)).trans
    (kept_setChildValue (by decide) _ _)

/-! Valid trees. -/

section Valid
variable {C : CharClasses}

theorem validateAttributes_insert {key value : String} (hkey : validateXmlName C key = .ok ())
    {attributes : List (String × String)} (h : validateAttributes C attributes = .ok ()) :
    validateAttributes C (SortedAssoc.insert key value attributes) = .ok () := by
  induction attributes with
  | nil => exact validateAttributes_cons_iff.mpr ⟨hkey, h⟩
  | cons entry rest ih =>
    obtain ⟨other, text⟩ := entry
    obtain ⟨hother, hrest⟩ := validateAttributes_cons_iff.mp h
    unfold SortedAssoc.insert
    split
    · exact validateAttributes_cons_iff.mpr ⟨hkey, h⟩
    · split
      · exact validateAttributes_cons_iff.mpr ⟨hkey, hrest⟩
      · exact validateAttributes_cons_iff.mpr ⟨hother, ih hrest⟩

/-- The value is not the identity of an element. -/
theorem attributeId_insert {key : String} (hkey : asciiLowercase key ≠ "id") (value : String)
    (attributes : List (String × String)) :
    attributeId (SortedAssoc.insert key value attributes) = attributeId attributes := by
  induction attributes with
  | nil => simp [attributeId, SortedAssoc.insert, hkey]
  | cons entry rest ih =>
    obtain ⟨other, text⟩ := entry
    unfold SortedAssoc.insert
    split
    · simp [attributeId, hkey]
    · split
      · rename_i heq
        simp [attributeId, ← heq, hkey]
      · unfold attributeId at ih ⊢
        simp only [List.find?_cons]
        split
        · rfl
        · exact ih

variable (hC : C.HasLetters)
include hC

theorem validate_withAttribute {e : XmlElement} (h : e.validate C = .ok ()) (value : String) :
    (e.withAttribute "Value" value).validate C = .ok () := by
  cases e with
  | mk tag id attributes children =>
    obtain ⟨htag, hattributes, hid, hchildren⟩ := validate_iff.mp h
    refine validate_iff.mpr ⟨htag, ?_, ?_, hchildren⟩
    · exact validateAttributes_insert (validateXmlName_letters hC (by simp) (by decide)) hattributes
    · intro hsome
      rw [attributeId_insert (by decide +kernel)]
      exact hid hsome

theorem validate_setFirst {name : String} (hname : validateXmlName C name = .ok ())
    (value : String) {contents : List XmlContent} (h : validateContents C contents = .ok ()) :
    validateContents C (XmlElement.setFirst name value contents) = .ok () := by
  induction contents with
  | nil =>
    refine validateContents_cons_iff.mpr ⟨validate_iff.mpr ⟨hname, ?_, nofun, h⟩, h⟩
    exact validateAttributes_cons_iff.mpr
      ⟨validateXmlName_letters hC (by simp) (by decide), rfl⟩
  | cons content rest ih =>
    cases content with
    | element e =>
      obtain ⟨he, hrest⟩ := validateContents_cons_iff.mp h
      unfold XmlElement.setFirst
      split
      · exact validateContents_cons_iff.mpr ⟨validate_withAttribute hC he value, hrest⟩
      · exact validateContents_cons_iff.mpr ⟨he, ih hrest⟩
    | text _ => exact ih h
    | cdata _ => exact ih h
    | comment _ => exact ih h

theorem validate_setChildValue {name : String} (hname : validateXmlName C name = .ok ())
    (value : String) {e : XmlElement} (h : e.validate C = .ok ()) :
    (e.setChildValue name value).validate C = .ok () := by
  cases e with
  | mk tag id attributes children =>
    obtain ⟨htag, hattributes, hid, hchildren⟩ := validate_iff.mp h
    exact validate_iff.mpr ⟨htag, hattributes, hid, validate_setFirst hC hname value hchildren⟩

theorem validate_rewrittenRef {e : XmlElement} (h : e.validate C = .ok ()) (plan : VendorPlan)
    (projectRoot : HostPath) : (rewrittenRef plan projectRoot e).validate C = .ok () := by
  have hnames : ∀ name ∈ writtenNames, validateXmlName C name = .ok () := by
    have hletters : ∀ name ∈ writtenNames,
        name.toList ≠ [] ∧ name.toList.all Char.isAlpha = true := by decide
    exact fun name hname => validateXmlName_letters hC (hletters name hname).1 (hletters name hname).2
  unfold rewrittenRef Outcome.write
  split
  · exact validate_setChildValue hC (hnames _ (by decide)) _
      (validate_setChildValue hC (hnames _ (by decide)) _
        (validate_setChildValue hC (hnames _ (by decide)) _ h))
  · exact h

omit hC in
mutual
/-- A walk that keeps references valid keeps the set valid. -/
theorem validate_visitFileRefs {S : Type} {visit : XmlElement → S → XmlElement × S}
    (hvisit : ∀ e s, e.validate C = .ok () → (visit e s).1.validate C = .ok ()) (e : XmlElement)
    (s : S) (h : e.validate C = .ok ()) : (visitFileRefs visit e s).1.validate C = .ok () := by
  cases e with
  | mk tag id attributes children =>
    unfold visitFileRefs
    split
    · exact hvisit _ s h
    · obtain ⟨htag, hattributes, hid, hchildren⟩ := validate_iff.mp h
      exact validate_iff.mpr
        ⟨htag, hattributes, hid, validate_visitContents hvisit children s hchildren⟩
theorem validate_visitContents {S : Type} {visit : XmlElement → S → XmlElement × S}
    (hvisit : ∀ e s, e.validate C = .ok () → (visit e s).1.validate C = .ok ())
    (contents : List XmlContent) (s : S) (h : validateContents C contents = .ok ()) :
    validateContents C (visitContents visit contents s).1 = .ok () := by
  cases contents with
  | nil => exact h
  | cons content rest =>
    cases content with
    | element e =>
      obtain ⟨he, hrest⟩ := validateContents_cons_iff.mp h
      exact validateContents_cons_iff.mpr ⟨validate_visitFileRefs hvisit e s he,
        validate_visitContents hvisit rest _ hrest⟩
    | text _ => exact validate_visitContents hvisit rest s h
    | cdata _ => exact validate_visitContents hvisit rest s h
    | comment _ => exact validate_visitContents hvisit rest s h
end

end Valid

/-! The report. -/

def RewriteReport.total (report : RewriteReport) : Nat :=
  report.rewritten + report.alreadyInFolder + report.leftToLive + report.empty +
    report.unresolved.length

theorem total_count (report : RewriteReport) (found : Outcome) :
    (report.count found).total = report.total + 1 := by
  cases found with
  | unresolved reference =>
    simp only [RewriteReport.count, RewriteReport.total, List.length_append, List.length_singleton]
    omega
  | _ =>
    simp only [RewriteReport.count, RewriteReport.total]
    omega

theorem total_visitAll (plan : VendorPlan) (projectRoot : HostPath) (es : List XmlElement)
    (report : RewriteReport) :
    (visitAll (rewriteOne plan projectRoot) es report).2.total = report.total + es.length := by
  induction es generalizing report with
  | nil => rfl
  | cons e es ih =>
    rw [visitAll, ih, rewriteOne_eq, total_count, List.length_cons]
    omega

mutual
/-- The number of references, with those inside others. -/
def fileRefCount : XmlElement → Nat
  | .mk tag _ _ children => (if tag = "FileRef" then 1 else 0) + contentFileRefCount children
def contentFileRefCount : List XmlContent → Nat
  | [] => 0
  | .element e :: rest => fileRefCount e + contentFileRefCount rest
  | _ :: rest => contentFileRefCount rest
end

/-- Rewriting changes only the three children of references that the plan matches, and counts
every reference that is not inside another. -/
theorem rewriteFileRefs_frame {C : CharClasses} (hC : C.HasLetters) {root : XmlElement}
    (hvalid : root.validate C = .ok ()) (plan : VendorPlan) (projectRoot : HostPath) :
    frame (rewriteFileRefs root plan projectRoot).1 = frame root ∧
      List.Forall₂ (fun e e' => e' = e ∨ (∃ destination, Matches plan e destination) ∧ KeptRef e e')
        (fileRefs root) (fileRefs (rewriteFileRefs root plan projectRoot).1) ∧
      (rewriteFileRefs root plan projectRoot).1.validate C = .ok () ∧
      (rewriteFileRefs root plan projectRoot).2.total = (fileRefs root).length := by
  have htag : ∀ e s, (rewriteOne plan projectRoot e s).1.tag = e.tag := fun e s => by
    rw [fst_rewriteOne, tag_rewrittenRef]
  obtain ⟨hrefs, hframe⟩ := visitFileRefs_spec htag root {}
  refine ⟨hframe, ?_, ?_, ?_⟩
  · rw [fileRefs_rewriteFileRefs, List.forall₂_map_right_iff, List.forall₂_same]
    intro e _
    by_cases hmatch : ∃ destination, Matches plan e destination
    · obtain ⟨destination, hmatch⟩ := hmatch
      rw [rewrittenRef_of_matches hmatch]
      exact .inr ⟨⟨destination, hmatch⟩, kept_writeReference e destination projectRoot⟩
    · exact .inl (rewrittenRef_of_not (not_exists.mp hmatch) projectRoot)
  · have hvisit : ∀ (e : XmlElement) (s : RewriteReport), e.validate C = .ok () →
        (rewriteOne plan projectRoot e s).1.validate C = .ok () := by
      intro e s he
      rw [fst_rewriteOne]
      exact validate_rewrittenRef hC he plan projectRoot
    exact validate_visitFileRefs hvisit root {} hvalid
  · have htotal := total_visitAll plan projectRoot (fileRefs root) {}
    rw [hrefs] at htotal
    exact htotal.trans (Nat.zero_add _)

def asciiClasses : CharClasses := ⟨Char.isAlpha, Char.isAlphanum⟩

theorem hasLetters_ascii : asciiClasses.HasLetters := by
  intro c hc
  exact ⟨hc, by simp [asciiClasses, Char.isAlphanum, hc]⟩

theorem rewriteFileRefs_frame_flat :
    (rewriteFileRefs (setWith flatRef) chainedPlan (.ofText "/p")).1.validate asciiClasses = .ok () ∧
      (rewriteFileRefs (setWith flatRef) chainedPlan (.ofText "/p")).2.total = 1 := by
  have hvalid : (setWith flatRef).validate asciiClasses = .ok () := by decide +kernel
  have h := rewriteFileRefs_frame hasLetters_ascii hvalid chainedPlan (.ofText "/p")
  exact ⟨h.2.2.1, h.2.2.2⟩

/-- A reference around the other one. -/
def outerRef : XmlElement := .mk "FileRef" none [] [.element flatRef]

theorem inner_ref_uncounted :
    (rewriteFileRefs (setWith outerRef) chainedPlan (.ofText "/p")).2.total ≠
      fileRefCount (setWith outerRef) := by
  decide +kernel

end Ableton

end AuruPm
