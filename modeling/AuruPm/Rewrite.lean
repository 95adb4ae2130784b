import AuruPm.AssetPlan

/-!
# Pointing a Live Set at its gathered files

`ableton/rewrite.rs`: on restore, each `FileRef` whose path the manifest maps is written to point
into the project folder. The walk visits the references that planning collects, one after another,
and changes nothing else.
-/

namespace AuruPm

set_option autoImplicit false

open SortedAssoc

/-! Writing a child's value. -/

namespace XmlElement

def withAttribute (key value : String) : XmlElement → XmlElement
  | .mk tag id attributes children => .mk tag id (insert key value attributes) children

/-- The first element of this name with the value, or a new one at the end. -/
def setFirst (name value : String) : List XmlContent → List XmlContent
  | [] => [.element (.mk name none [("Value", value)] [])]
  | .element e :: rest =>
    if e.tag = name then .element (e.withAttribute "Value" value) :: rest
    else .element e :: setFirst name value rest
  | content :: rest => content :: setFirst name value rest

def setChildValue (name value : String) : XmlElement → XmlElement
  | .mk tag id attributes children => .mk tag id attributes (setFirst name value children)

@[simp] theorem tag_setChildValue (name value : String) (e : XmlElement) :
    (e.setChildValue name value).tag = e.tag := by
  cases e
  rfl

theorem tag_withAttribute (key value : String) (e : XmlElement) :
    (e.withAttribute key value).tag = e.tag := by
  cases e
  rfl

theorem attributeValue_withAttribute (key value : String) (e : XmlElement) :
    (e.withAttribute key value).attributeValue key = some value := by
  cases e
  simp only [withAttribute, attributeValue, attributes, get?_insert, if_true]

theorem filterMap_element (e : XmlElement) (rest : List XmlContent) :
    (XmlContent.element e :: rest).filterMap XmlContent.element? =
      e :: rest.filterMap XmlContent.element? := List.filterMap_cons_some rfl

theorem find?_setFirst (name value : String) (contents : List XmlContent) :
    ∃ e, ((setFirst name value contents).filterMap XmlContent.element?).find?
      (fun child => child.tag = name) = some e ∧ e.attributeValue "Value" = some value := by
  induction contents with
  | nil =>
    refine ⟨.mk name none [("Value", value)] [], ?_, rfl⟩
    simp [setFirst, XmlContent.element?, tag]
  | cons content rest ih =>
    cases content with
    | element e =>
      unfold setFirst
      split
      · rename_i htag
        refine ⟨e.withAttribute "Value" value, ?_, attributeValue_withAttribute _ _ e⟩
        rw [filterMap_element, List.find?_cons_of_pos]
        rw [decide_eq_true_iff, tag_withAttribute]
        exact htag
      · rename_i htag
        rw [filterMap_element, List.find?_cons_of_neg (by simpa using htag)]
        exact ih
    | text _ => exact ih
    | cdata _ => exact ih
    | comment _ => exact ih

theorem find?_setFirst_of_ne {name other : String} (h : other ≠ name) (value : String)
    (contents : List XmlContent) :
    ((setFirst name value contents).filterMap XmlContent.element?).find?
      (fun child => child.tag = other) =
    (contents.filterMap XmlContent.element?).find? fun child => child.tag = other := by
  induction contents with
  | nil => simp [setFirst, XmlContent.element?, tag, h.symm]
  | cons content rest ih =>
    cases content with
    | element e =>
      unfold setFirst
      split
      · rename_i htag
        have hne : ¬e.tag = other := fun heq => h (heq.symm.trans htag)
        rw [filterMap_element, filterMap_element, List.find?_cons_of_neg, List.find?_cons_of_neg]
        · simpa using hne
        · rw [decide_eq_true_iff, tag_withAttribute]
          exact hne
      · rw [filterMap_element, filterMap_element, List.find?_cons, List.find?_cons, ih]
    | text _ => exact ih
    | cdata _ => exact ih
    | comment _ => exact ih

theorem childValue_setChildValue (name value : String) (e : XmlElement) :
    (e.setChildValue name value).childValue name = some value := by
  cases e with
  | mk tag id attributes contents =>
    obtain ⟨found, hfound, hvalue⟩ := find?_setFirst name value contents
    rw [childValue, child, childElements, setChildValue, children, hfound]
    exact hvalue

/-- Only the child of this name changes. -/
theorem child_setChildValue_of_ne {name other : String} (h : other ≠ name) (value : String)
    (e : XmlElement) : (e.setChildValue name value).child other = e.child other := by
  cases e with
  | mk tag id attributes contents => exact find?_setFirst_of_ne h value contents

theorem childValue_setChildValue_of_ne {name other : String} (h : other ≠ name) (value : String)
    (e : XmlElement) : (e.setChildValue name value).childValue other = e.childValue other := by
  rw [childValue, childValue, child_setChildValue_of_ne h]

end XmlElement

namespace Ableton

/-! Rewriting. -/

/-- Where each gathered file lies, by the path that the set refers to it by. -/
structure VendorPlan where
  placements : List (String × String)

namespace VendorPlan

def new (placements : List (String × String)) : VendorPlan :=
  ⟨placements.foldl (fun map placement => insert placement.1 placement.2 map) []⟩

def destinationFor (plan : VendorPlan) (reference : String) : Option String :=
  get? plan.placements reference

end VendorPlan

structure RewriteReport where
  rewritten : Nat := 0
  alreadyInFolder : Nat := 0
  leftToLive : Nat := 0
  empty : Nat := 0
  unresolved : List String := []
  deriving DecidableEq

def installationPathType : Nat := 5

def projectFolderPathType : Nat := 3

/-- The absolute form of a path in the folder, with Ableton's slashes. -/
def absolutePathFor (projectRoot : HostPath) (destination : String) : String :=
  let path := projectRoot.display.toList.map fun c => if c = '\\' then '/' else c
  let path := if path.getLast? = some '/' then path else path ++ ['/']
  String.ofList path ++ destination

def writeReference (fileRef : XmlElement) (destination : String) (projectRoot : HostPath) :
    XmlElement :=
  ((fileRef.setChildValue "RelativePathType" (toString projectFolderPathType)).setChildValue
    "RelativePath" destination).setChildValue "Path" (absolutePathFor projectRoot destination)

def rewriteOne (plan : VendorPlan) (projectRoot : HostPath) (fileRef : XmlElement)
    (report : RewriteReport) : XmlElement × RewriteReport :=
  let relative := (fileRef.childValue "RelativePath").getD ""
  let absolute := (fileRef.childValue "Path").getD ""
  let pathType := ((fileRef.childValue "RelativePathType").bind parseU32).getD 0
  let livePack := ((fileRef.childValue "LivePackName").filter (· ≠ "")).isSome
  if relative = "" ∧ absolute = "" then (fileRef, { report with empty := report.empty + 1 })
  else if pathType = installationPathType ∨ livePack = true then
    (fileRef, { report with leftToLive := report.leftToLive + 1 })
  else
    let reference := if relative = "" then absolute else relative
    match plan.destinationFor reference with
    | some destination =>
      (writeReference fileRef destination projectRoot,
        { report with rewritten := report.rewritten + 1 })
    | none =>
      if pathType = projectFolderPathType ∧ relative ≠ "" then
        (fileRef, { report with alreadyInFolder := report.alreadyInFolder + 1 })
      else (fileRef, { report with unresolved := report.unresolved ++ [reference] })

section Visit
variable {S : Type} (visit : XmlElement → S → XmlElement × S)

mutual
/-- Depth first. A `FileRef` nests no other. -/
def visitFileRefs : XmlElement → S → XmlElement × S
  | .mk tag id attributes children, s =>
    if tag = "FileRef" then visit (.mk tag id attributes children) s
    else
      let next := visitContents children s
      (.mk tag id attributes next.1, next.2)
def visitContents : List XmlContent → S → List XmlContent × S
  | [], s => ([], s)
  | .element e :: rest, s =>
    let next := visitFileRefs e s
    let last := visitContents rest next.2
    (.element next.1 :: last.1, last.2)
  | content :: rest, s =>
    let last := visitContents rest s
    (content :: last.1, last.2)
end

end Visit

def rewriteFileRefs (root : XmlElement) (plan : VendorPlan) (projectRoot : HostPath) :
    XmlElement × RewriteReport :=
  visitFileRefs (rewriteOne plan projectRoot) root {}

/-! The references of a set, and what is around them. -/

mutual
def fileRefs : XmlElement → List XmlElement
  | .mk tag id attributes children =>
    if tag = "FileRef" then [.mk tag id attributes children] else contentFileRefs children
def contentFileRefs : List XmlContent → List XmlElement
  | [] => []
  | .element e :: rest => fileRefs e ++ contentFileRefs rest
  | _ :: rest => contentFileRefs rest
end

mutual
/-- The set with its references emptied. -/
def frame : XmlElement → XmlElement
  | .mk tag id attributes children =>
    if tag = "FileRef" then .mk tag none [] [] else .mk tag id attributes (contentFrame children)
def contentFrame : List XmlContent → List XmlContent
  | [] => []
  | .element e :: rest => .element (frame e) :: contentFrame rest
  | content :: rest => content :: contentFrame rest
end

mutual
/-- The planner reads the references that the rewriter visits. -/
theorem collect_eq_fileRefs (e : XmlElement) : collect e = (fileRefs e).map readFileRef := by
  cases e with
  | mk tag id attributes children =>
    unfold collect fileRefs
    split
    · rfl
    · exact collectContents_eq_contentFileRefs children
theorem collectContents_eq_contentFileRefs (contents : List XmlContent) :
    collectContents contents = (contentFileRefs contents).map readFileRef := by
  cases contents with
  | nil => rfl
  | cons content rest =>
    have hrest := collectContents_eq_contentFileRefs rest
    cases content with
    | element e =>
      rw [collectContents, contentFileRefs, List.map_append, collect_eq_fileRefs e, hrest]
    | text _ => exact hrest
    | cdata _ => exact hrest
    | comment _ => exact hrest
end

section Visit
variable {S : Type} (visit : XmlElement → S → XmlElement × S)

/-- The visits, without what is around them. -/
def visitAll : List XmlElement → S → List XmlElement × S
  | [], s => ([], s)
  | e :: rest, s =>
    let next := visit e s
    let last := visitAll rest next.2
    (next.1 :: last.1, last.2)

theorem visitAll_append (es es' : List XmlElement) (s : S) :
    visitAll visit (es ++ es') s =
      ((visitAll visit es s).1 ++ (visitAll visit es' (visitAll visit es s).2).1,
        (visitAll visit es' (visitAll visit es s).2).2) := by
  induction es generalizing s with
  | nil => rfl
  | cons e es ih => simp only [List.cons_append, visitAll, ih]

variable {visit}

theorem fileRefs_of_tag {e : XmlElement} (h : e.tag = "FileRef") : fileRefs e = [e] := by
  cases e with
  | mk tag id attributes children =>
    unfold fileRefs
    exact if_pos h

theorem frame_of_tag {e : XmlElement} (h : e.tag = "FileRef") :
    frame e = .mk "FileRef" none [] [] := by
  cases e with
  | mk tag id attributes children =>
    obtain rfl : tag = "FileRef" := h
    unfold frame
    exact if_pos rfl

mutual
/-- The walk is the visits in order, and nothing around them changes. -/
theorem visitFileRefs_spec (hvisit : ∀ e s, (visit e s).1.tag = e.tag) (e : XmlElement) (s : S) :
    visitAll visit (fileRefs e) s =
        (fileRefs (visitFileRefs visit e s).1, (visitFileRefs visit e s).2) ∧
      frame (visitFileRefs visit e s).1 = frame e := by
  cases e with
  | mk tag id attributes children =>
    unfold visitFileRefs
    split
    · rename_i htag
      have hafter : (visit (.mk tag id attributes children) s).1.tag = "FileRef" :=
        (hvisit _ s).trans htag
      have hbefore : (XmlElement.mk tag id attributes children).tag = "FileRef" := htag
      rw [fileRefs_of_tag hafter, frame_of_tag hafter, fileRefs_of_tag hbefore,
        frame_of_tag hbefore]
      exact ⟨rfl, rfl⟩
    · rename_i htag
      obtain ⟨hrefs, hframe⟩ := visitContents_spec hvisit children s
      simp only [fileRefs, frame, if_neg htag, hrefs, hframe, and_self]
theorem visitContents_spec (hvisit : ∀ e s, (visit e s).1.tag = e.tag)
    (contents : List XmlContent) (s : S) :
    visitAll visit (contentFileRefs contents) s =
        (contentFileRefs (visitContents visit contents s).1, (visitContents visit contents s).2) ∧
      contentFrame (visitContents visit contents s).1 = contentFrame contents := by
  cases contents with
  | nil => exact ⟨rfl, rfl⟩
  | cons content rest =>
    cases content with
    | element e =>
      obtain ⟨hrefs, hframe⟩ := visitFileRefs_spec hvisit e s
      obtain ⟨hrefs', hframe'⟩ := visitContents_spec hvisit rest (visitFileRefs visit e s).2
      simp only [visitContents, contentFileRefs, contentFrame, visitAll_append, hrefs, hrefs',
        hframe, hframe', and_self]
    | text _ =>
      obtain ⟨hrefs, hframe⟩ := visitContents_spec hvisit rest s
      simp only [visitContents, contentFileRefs, contentFrame, hrefs, hframe, and_self]
    | cdata _ =>
      obtain ⟨hrefs, hframe⟩ := visitContents_spec hvisit rest s
      simp only [visitContents, contentFileRefs, contentFrame, hrefs, hframe, and_self]
    | comment _ =>
      obtain ⟨hrefs, hframe⟩ := visitContents_spec hvisit rest s
      simp only [visitContents, contentFileRefs, contentFrame, hrefs, hframe, and_self]
end

end Visit

end Ableton

end AuruPm
