import AuruPm.CommitText

/-!
# Writing project snapshots

What serde makes of a snapshot wrapper, and that the readers take it back.
-/

namespace AuruPm

set_option autoImplicit false

open SortedAssoc

def ProjectFormat.name : ProjectFormat → String
  | .auru => "auru"
  | .dawproject => "dawproject"
  | .abletonLiveSet => "ableton-live-set"
  | .flStudio => "fl-studio"
  | .bitwigProject => "bitwig-project"

/-- A map of strings. -/
def stringMapValue (attributes : List (String × String)) : Value :=
  .object (attributes.map fun entry => (entry.1, .string entry.2))

def skipEmpty {A : Type} (name : String) (write : List A → Value) (field : List A) :
    List (String × Value) :=
  if field.isEmpty then [] else [(name, write field)]

mutual
def XmlElement.toValue : XmlElement → Value
  | .mk tag id attributes children =>
    structValue <|
      [("tag", .string tag)] ++ skipNone "id" .string id ++
        skipEmpty "attributes" stringMapValue attributes ++
        (if children.isEmpty then [] else [("children", .array (contentValues children))])
def contentValues : List XmlContent → List Value
  | [] => []
  | .element element :: rest => element.toValue :: contentValues rest
  | .text text :: rest => structValue [("text", .string text)] :: contentValues rest
  | .cdata cdata :: rest => structValue [("cdata", .string cdata)] :: contentValues rest
  | .comment comment :: rest => structValue [("comment", .string comment)] :: contentValues rest
end

def XmlDocument.toValue (document : XmlDocument) : Value :=
  structValue [("root", document.root.toValue)]

section Wrappers
variable {Bytes Hash : Type} (F : Formats Bytes Hash)

def ArchiveResource.toValue (resource : ArchiveResource Hash) : Value :=
  structValue <|
    [("id", .string resource.id)] ++ skipNone "data" .string resource.data ++
      skipNone "hash" (hashValue F) resource.hash ++
      skipNone "size" (fun size : Nat => .number (.ofInt size)) resource.size

def PortableSnapshot.toValue (p : PortableSnapshot Hash) : Value :=
  structValue <|
    [("auru_pm_snapshot", .number (.ofInt p.auruPmSnapshot)), ("format", .string p.format.name),
      ("project", p.project.toValue)] ++
      skipNone "metadata" XmlDocument.toValue p.metadata ++
      skipEmpty "resources" (fun resources => .array (resources.map (ArchiveResource.toValue F)))
        p.resources

end Wrappers

/-! Reading back. -/

theorem readStringMap_stringMapValue (attributes : List (String × String)) :
    readStringMap (stringMapValue attributes) = some attributes := by
  unfold stringMapValue readStringMap
  induction attributes with
  | nil => rfl
  | cons entry rest ih => simp [readStrings, Value.asStr, ih]

theorem readChildren_eq (fields : List (String × Value)) :
    readChildren fields = readDefault [] readContents (get? fields "children") := by
  induction fields with
  | nil => rfl
  | cons field rest ih =>
    obtain ⟨key, v⟩ := field
    rw [readChildren, get?_cons, ih]
    by_cases hkey : key = "children"
    · rw [if_pos hkey, if_pos hkey.symm]
      rfl
    · rw [if_neg hkey, if_neg (Ne.symm hkey)]

/-- Reading an element by the names of its fields. -/
theorem readElement_structValue (fields : List (String × Value)) :
    readElement (structValue fields) = (do
      let field := get? (fields.foldl (fun m f => SortedAssoc.insert f.1 f.2 m) [])
      let tag ← (field "tag").bind Value.asStr
      let id ← readDefault none (readOption Value.asStr) (field "id")
      let attributes ← readDefault [] readStringMap (field "attributes")
      let children ← readDefault [] readContents (field "children")
      return .mk tag id attributes children) := by
  simp only [structValue, readElement, readChildren_eq]

@[simp] theorem isStruct_structValue (n : Nat) (fields : List (String × Value)) :
    isStruct n (structValue fields) = true := rfl

/-- A leaf is no element. -/
theorem readElement_leaf {name : String} {v : Value}
    (h : name = "text" ∨ name = "cdata" ∨ name = "comment") :
    readElement (structValue [(name, v)]) = none := by
  rw [readElement_structValue]
  rcases h with rfl | rfl | rfl <;> simp [get?_insert]

theorem readLeafOf_leaf (name name' s : String) :
    readLeafOf name (structValue [(name', .string s)]) = if name = name' then some s else none := by
  simp only [readLeafOf, isStruct_structValue, if_true, structField_structValue, List.foldl_cons,
    List.foldl_nil, get?_insert, get?_nil]
  by_cases h : name = name'
  · rw [if_pos h, if_pos h]
    rfl
  · rw [if_neg h, if_neg h]
    rfl

mutual
theorem readElement_toValue : (e : XmlElement) → readElement e.toValue = some e
  | .mk tag id attributes children => by
    have hchildren : readContents (.array (contentValues children)) = some children := by
      rw [readContents]
      exact readEach_contentValues children
    rw [XmlElement.toValue, readElement_structValue]
    cases id <;> cases attributes <;> cases children <;>
      simp_all [skipNone, skipEmpty, get?_insert, readDefault, readOption, Value.asStr,
        readStringMap_stringMapValue]
theorem readEach_contentValues : (contents : List XmlContent) →
    readEach (contentValues contents) = some contents
  | [] => rfl
  | .element e :: rest => by
    simp [contentValues, readEach, readElement_toValue e, readEach_contentValues rest]
  | .text text :: rest => by
    simp [contentValues, readEach, readElement_leaf, readEach_contentValues rest, readLeaf,
      readLeafOf_leaf]
  | .cdata cdata :: rest => by
    simp [contentValues, readEach, readElement_leaf, readEach_contentValues rest, readLeaf,
      readLeafOf_leaf]
  | .comment comment :: rest => by
    simp [contentValues, readEach, readElement_leaf, readEach_contentValues rest, readLeaf,
      readLeafOf_leaf]
end

theorem readDocument_toValue (document : XmlDocument) :
    readDocument document.toValue = some document := by
  simp [readDocument, XmlDocument.toValue, structField_structValue, get?_insert,
    readElement_toValue]

theorem readFormat_name (format : ProjectFormat) : readFormat (.string format.name) = some format := by
  cases format <;> rfl

theorem asU64_ofNat (n : Nat) : (Value.number (.ofInt n)).asU64 = some (.ofNat n) := rfl

section Wrappers
variable {Bytes Hash : Type} {F : Formats Bytes Hash} {C : Codecs Bytes Hash}

theorem readResource_toValue {resource : ArchiveResource Hash}
    (hhash : ∀ hash ∈ resource.hash, C.parseHash (F.hashText hash) = some hash)
    (hsize : ∀ size ∈ resource.size, size < 2 ^ 64) :
    readResource C (resource.toValue F) = some resource := by
  obtain ⟨id, data, hash, size⟩ := resource
  have hread : ∀ n : Nat, n < 2 ^ 64 → readU64 (.number (.ofInt n)) = some n := by
    intro n hn
    rw [readU64, asU64_ofNat, Option.map_some, toNat_ofNat_of_lt hn]
  have hhashes : ∀ h ∈ hash, readHash C (hashValue F h) = some h := hhash
  cases data <;> cases hash <;> cases size <;>
    simp_all [readResource, ArchiveResource.toValue, structField_structValue, skipNone, get?_insert,
      readDefault, readOption, Value.asStr, hashValue]

theorem readList_toValue {resources : List (ArchiveResource Hash)}
    (hhash : ∀ resource ∈ resources, ∀ hash ∈ resource.hash,
      C.parseHash (F.hashText hash) = some hash)
    (hsizes : ∀ resource ∈ resources, ∀ size ∈ resource.size, size < 2 ^ 64) :
    readList (readResource C) (.array (resources.map (ArchiveResource.toValue F))) =
      some resources := by
  unfold readList
  induction resources with
  | nil => rfl
  | cons resource rest ih =>
    have hhead := readResource_toValue (hhash resource List.mem_cons_self)
      (hsizes resource List.mem_cons_self)
    have htail := ih (fun r hr => hhash r (List.mem_cons_of_mem _ hr))
      fun r hr => hsizes r (List.mem_cons_of_mem _ hr)
    simp only [List.map_cons, List.mapM_cons, hhead, htail]
    rfl

theorem readPortable_toValue {p : PortableSnapshot Hash}
    (hhash : ∀ resource ∈ p.resources, ∀ hash ∈ resource.hash,
      C.parseHash (F.hashText hash) = some hash) (hversion : p.auruPmSnapshot < 2 ^ 32)
    (hsizes : ∀ resource ∈ p.resources, ∀ size ∈ resource.size, size < 2 ^ 64) :
    readPortable C (p.toValue F) = some p := by
  obtain ⟨version, format, project, metadata, resources⟩ := p
  have hread : readU32 (.number (.ofInt version)) = some version := by
    have hword : version < 2 ^ 64 := Nat.lt_trans hversion (by decide)
    rw [readU32, asU64_ofNat, Option.bind_some, toNat_ofNat_of_lt hword, if_pos hversion]
  have hresources := readList_toValue hhash hsizes
  have hdocument : ∀ document, readOption readDocument (XmlDocument.toValue document) =
      some (some document) := by
    intro document
    exact congrArg (Option.map some) (readDocument_toValue document)
  cases metadata <;> cases resources <;>
    simp_all [readPortable, PortableSnapshot.toValue, structField_structValue, skipNone, skipEmpty,
      get?_insert, readDefault, readFormat_name, readDocument_toValue]

end Wrappers

/-! As JSON. -/

/-- What `blob_encoding` and `serde_json` promise together: a document nested only so deep is parsed
as it was printed, but for rounded floats, and a deeper one is refused. -/
structure Formats.ReadsBlobs {Bytes Hash : Type} (F : Formats Bytes Hash)
    (blob : Value → Except String Bytes) (limit : Nat) : Prop where
  printed : ∀ v bytes, blob v = .ok bytes → v.wf = true → v.depth ≤ limit →
    ∃ w, F.decodeValue bytes = .ok w ∧ w.unfloat = v.unfloat
  refused : ∀ v bytes, blob v = .ok bytes → v.wf = true → limit < v.depth →
    ∃ e, F.decodeValue bytes = .error e

theorem wf_structValue {fields : List (String × Value)} (h : ∀ field ∈ fields, field.2.wf = true) :
    (structValue fields).wf = true := by
  rw [structValue, Value.wf_object]
  refine ⟨sorted_foldl_insert fields List.Pairwise.nil, fun e he => ?_⟩
  rcases mem_foldl_insert he with he | ⟨f, hf, rfl⟩
  · cases he
  · exact h f hf

theorem depth_structValue_le {fields : List (String × Value)} {n : Nat}
    (h : ∀ field ∈ fields, field.2.depth ≤ n) : (structValue fields).depth ≤ n + 1 := by
  rw [structValue, Value.depth_object_le_iff]
  intro e he
  rcases mem_foldl_insert he with he | ⟨f, hf, rfl⟩
  · cases he
  · exact h f hf

theorem depth_stringMapValue (attributes : List (String × String)) :
    (stringMapValue attributes).depth ≤ 1 := by
  rw [stringMapValue, Value.depth_object_le_iff]
  intro e he
  obtain ⟨entry, _, rfl⟩ := List.mem_map.mp he
  exact Nat.le_refl 0

mutual
/-- The attributes of every element are in the order of a map. -/
def XmlElement.Ordered : XmlElement → Prop
  | .mk _ _ attributes children => Sorted attributes ∧ ContentsOrdered children
def ContentsOrdered : List XmlContent → Prop
  | [] => True
  | .element element :: rest => element.Ordered ∧ ContentsOrdered rest
  | _ :: rest => ContentsOrdered rest
end

theorem forall_skipNone {A : Type} {name : String} {write : A → Value} {field : Option A}
    {P : Value → Prop} (h : ∀ a ∈ field, P (write a)) : ∀ e ∈ skipNone name write field, P e.2 := by
  cases field with
  | none =>
    intro e he
    cases he
  | some a =>
    intro e he
    obtain rfl := List.mem_singleton.mp he
    exact h a rfl

theorem forall_skipEmpty {A : Type} {name : String} (write : List A → Value) {field : List A}
    {P : Value → Prop} (h : P (write field)) : ∀ e ∈ skipEmpty name write field, P e.2 := by
  intro e he
  unfold skipEmpty at he
  split at he
  · cases he
  · obtain rfl := List.mem_singleton.mp he
    exact h

/-- What holds of every field of an element holds of its value. -/
theorem forall_elementFields {P : Value → Prop} {tag : String} {id : Option String}
    {attributes : List (String × String)} {children : List XmlContent}
    (hstring : ∀ s, P (.string s)) (hattributes : P (stringMapValue attributes))
    (hchildren : P (.array (contentValues children))) :
    ∀ e ∈ [("tag", Value.string tag)] ++ skipNone "id" .string id ++
      skipEmpty "attributes" stringMapValue attributes ++
        (if children.isEmpty then [] else [("children", .array (contentValues children))]),
      P e.2 := by
  intro e he
  simp only [List.mem_append] at he
  rcases he with ((he | he) | he) | he
  · obtain rfl := List.mem_singleton.mp he
    exact hstring tag
  · exact forall_skipNone (fun s _ => hstring s) e he
  · exact forall_skipEmpty stringMapValue hattributes e he
  · split at he
    · cases he
    · obtain rfl := List.mem_singleton.mp he
      exact hchildren

theorem forall_leaf {P : Value → Prop} {name s : String} (hstring : P (.string s)) :
    ∀ e ∈ [(name, Value.string s)], P e.2 := by
  intro e he
  obtain rfl := List.mem_singleton.mp he
  exact hstring

theorem wf_stringMapValue {attributes : List (String × String)} (h : Sorted attributes) :
    (stringMapValue attributes).wf = true := by
  rw [stringMapValue, Value.wf_object]
  refine ⟨List.pairwise_map.mpr h, fun e he => ?_⟩
  obtain ⟨entry, _, rfl⟩ := List.mem_map.mp he
  rfl

mutual
theorem wf_elementValue : (e : XmlElement) → e.Ordered → e.toValue.wf = true
  | .mk tag id attributes children, h => by
    obtain ⟨hattributes, hchildren⟩ := h
    rw [XmlElement.toValue]
    apply wf_structValue
    apply forall_elementFields (P := fun v => v.wf = true) (fun _ => rfl)
      (wf_stringMapValue hattributes)
    exact Value.wf_array.mpr (wf_contentValues children hchildren)
theorem wf_contentValues : (contents : List XmlContent) → ContentsOrdered contents →
    ∀ v ∈ contentValues contents, v.wf = true
  | [], _ => by
    intro v hv
    cases hv
  | .element e :: rest, h => by
    intro v hv
    rcases List.mem_cons.mp hv with rfl | hv
    · exact wf_elementValue e h.1
    · exact wf_contentValues rest h.2 v hv
  | .text text :: rest, h => by
    intro v hv
    rcases List.mem_cons.mp hv with rfl | hv
    · exact wf_structValue (forall_leaf (P := fun v => v.wf = true) rfl)
    · exact wf_contentValues rest h v hv
  | .cdata cdata :: rest, h => by
    intro v hv
    rcases List.mem_cons.mp hv with rfl | hv
    · exact wf_structValue (forall_leaf (P := fun v => v.wf = true) rfl)
    · exact wf_contentValues rest h v hv
  | .comment comment :: rest, h => by
    intro v hv
    rcases List.mem_cons.mp hv with rfl | hv
    · exact wf_structValue (forall_leaf (P := fun v => v.wf = true) rfl)
    · exact wf_contentValues rest h v hv
end

def XmlDocument.Ordered (document : XmlDocument) : Prop := document.root.Ordered

theorem wf_documentValue {document : XmlDocument} (h : document.Ordered) :
    document.toValue.wf = true := by
  apply wf_structValue
  intro e he
  obtain rfl := List.mem_singleton.mp he
  exact wf_elementValue document.root h

section Printing
variable {Bytes Hash : Type} {F : Formats Bytes Hash} {C : Codecs Bytes Hash}
variable {p : PortableSnapshot Hash}

/-- A wrapper whose maps are in order and whose numbers fit their types. -/
structure PortableSnapshot.Storable (p : PortableSnapshot Hash) : Prop where
  version : p.auruPmSnapshot < 2 ^ 32
  project : p.project.Ordered
  metadata : ∀ document ∈ p.metadata, document.Ordered
  sizes : ∀ resource ∈ p.resources, ∀ size ∈ resource.size, size < 2 ^ 64

/-- What holds of every field of a wrapper holds of its value. -/
theorem forall_portableFields {P : Value → Prop}
    (hversion : P (.number (.ofInt p.auruPmSnapshot))) (hformat : P (.string p.format.name))
    (hproject : P p.project.toValue) (hmetadata : ∀ document ∈ p.metadata, P document.toValue)
    (hresources : P (.array (p.resources.map (ArchiveResource.toValue F)))) :
    ∀ e ∈ [("auru_pm_snapshot", Value.number (.ofInt p.auruPmSnapshot)),
        ("format", .string p.format.name), ("project", p.project.toValue)] ++
      skipNone "metadata" XmlDocument.toValue p.metadata ++
      skipEmpty "resources" (fun resources => .array (resources.map (ArchiveResource.toValue F)))
        p.resources, P e.2 := by
  intro e he
  simp only [List.mem_append, List.mem_cons, List.not_mem_nil, or_false] at he
  rcases he with ((rfl | rfl | rfl) | he) | he
  · exact hversion
  · exact hformat
  · exact hproject
  · exact forall_skipNone hmetadata e he
  · exact forall_skipEmpty (fun resources : List (ArchiveResource Hash) =>
      .array (resources.map (ArchiveResource.toValue F))) hresources e he

/-- What holds of every field of a resource holds of its value. -/
theorem forall_resourceFields {P : Value → Prop} {resource : ArchiveResource Hash}
    (hstring : ∀ s, P (.string s)) (hsize : ∀ size ∈ resource.size, P (.number (.ofInt size))) :
    ∀ e ∈ [("id", Value.string resource.id)] ++ skipNone "data" .string resource.data ++
      skipNone "hash" (hashValue F) resource.hash ++
      skipNone "size" (fun size : Nat => .number (.ofInt size)) resource.size, P e.2 := by
  intro e he
  simp only [List.mem_append] at he
  rcases he with ((he | he) | he) | he
  · obtain rfl := List.mem_singleton.mp he
    exact hstring resource.id
  · exact forall_skipNone (fun s _ => hstring s) e he
  · exact forall_skipNone (fun hash _ => hstring (F.hashText hash)) e he
  · exact forall_skipNone hsize e he

theorem wf_portableValue (h : p.Storable) : (p.toValue F).wf = true := by
  apply wf_structValue
  apply forall_portableFields (P := fun v => v.wf = true)
  · rfl
  · rfl
  · exact wf_documentValue h.project
  · exact fun document hdocument => wf_documentValue (h.metadata document hdocument)
  · rw [Value.wf_array]
    intro v hv
    obtain ⟨resource, _, rfl⟩ := List.mem_map.mp hv
    apply wf_structValue
    exact forall_resourceFields (P := fun v => v.wf = true) (fun _ => rfl) fun _ _ => rfl

theorem PortableSnapshot.Storable.read (h : p.Storable)
    (hhash : ∀ resource ∈ p.resources, ∀ hash ∈ resource.hash,
      C.parseHash (F.hashText hash) = some hash) :
    readPortable C (p.toValue F) = some p :=
  readPortable_toValue hhash h.version h.sizes

variable {blob : Value → Except String Bytes} {limit : Nat} {bytes : Bytes}

/-- A document that was printed is parsed as it was, but for its floats. -/
theorem Formats.ReadsBlobs.parse (hF : F.ReadsBlobs blob limit) {v : Value}
    (hbytes : blob v = .ok bytes) (hwf : v.wf = true) (hdepth : v.depth ≤ limit) :
    ∃ w, parseJson F bytes = .ok w ∧ w.unfloat = v.unfloat := by
  obtain ⟨w, hw, hunfloat⟩ := hF.printed v bytes hbytes hwf hdepth
  refine ⟨w, ?_, hunfloat⟩
  rw [parseJson, hw]

/-- A wrapper that was printed is read as it was. -/
theorem Formats.ReadsBlobs.read_portable (hF : F.ReadsBlobs blob limit) (h : p.Storable)
    (hhash : ∀ resource ∈ p.resources, ∀ hash ∈ resource.hash,
      C.parseHash (F.hashText hash) = some hash)
    (hbytes : blob (p.toValue F) = .ok bytes) (hdepth : (p.toValue F).depth ≤ limit) :
    ∃ v, parseJson F bytes = .ok v ∧ readPortable C v = some p := by
  obtain ⟨v, hv, hunfloat⟩ := hF.parse hbytes (wf_portableValue h) hdepth
  refine ⟨v, hv, ?_⟩
  rw [← readPortable_unfloat, hunfloat, readPortable_unfloat, h.read hhash]

end Printing

/-! Valid trees. -/

section Valid
variable {C : CharClasses}

/-- ASCII letters are letters. -/
def CharClasses.HasLetters (C : CharClasses) : Prop :=
  ∀ c : Char, c.isAlpha = true → C.isAlphabetic c = true ∧ C.isAlphanumeric c = true

theorem validateXmlName_letters (hC : C.HasLetters) {name : String} (hne : name.toList ≠ [])
    (h : name.toList.all Char.isAlpha = true) : validateXmlName C name = .ok () := by
  unfold validateXmlName
  obtain ⟨c, cs, hlist⟩ := List.exists_cons_of_ne_nil hne
  rw [hlist] at h ⊢
  simp only [List.all_cons, Bool.and_eq_true] at h
  have hrest : cs.all (fun c => C.isAlphanumeric c || c = '_' || c = ':' || c = '-' || c = '.') =
      true := by
    rw [List.all_eq_true]
    intro d hd
    simp [(hC d (List.all_eq_true.mp h.2 d hd)).2]
  simp only [List.tail_cons, (hC c h.1).1, hrest]
  rfl

theorem validateAttributes_letters (hC : C.HasLetters) {attributes : List (String × String)}
    (h : ∀ e ∈ attributes, e.1.toList ≠ [] ∧ e.1.toList.all Char.isAlpha = true) :
    validateAttributes C attributes = .ok () := by
  induction attributes with
  | nil => rfl
  | cons e rest ih =>
    obtain ⟨key, value⟩ := e
    obtain ⟨hne, hall⟩ := h (key, value) List.mem_cons_self
    rw [validateAttributes, validateXmlName_letters hC hne hall]
    exact ih fun e he => h e (List.mem_cons_of_mem _ he)

theorem validateContents_of {contents : List XmlContent}
    (h : ∀ c ∈ contents, ∃ e : XmlElement, c = .element e ∧ e.validate C = .ok ()) :
    validateContents C contents = .ok () := by
  induction contents with
  | nil => rfl
  | cons c rest ih =>
    obtain ⟨e, rfl, he⟩ := h c List.mem_cons_self
    rw [validateContents, he]
    exact ih fun c hc => h c (List.mem_cons_of_mem _ hc)

/-- An element is valid if its parts are. -/
theorem validate_element {tag : String} {id : Option String} {attributes : List (String × String)}
    {children : List XmlContent} (htag : validateXmlName C tag = .ok ())
    (hattributes : validateAttributes C attributes = .ok ())
    (hid : id.isSome → attributeId attributes = id)
    (hchildren : validateContents C children = .ok ()) :
    (XmlElement.mk tag id attributes children).validate C = .ok () := by
  rw [XmlElement.validate, htag]
  simp only [hattributes, hchildren]
  by_cases hsome : id.isSome = true
  · simp [hsome, hid hsome]
    rfl
  · simp [hsome]
    rfl

theorem validate_iff {tag : String} {id : Option String} {attributes : List (String × String)}
    {children : List XmlContent} :
    (XmlElement.mk tag id attributes children).validate C = .ok () ↔
      validateXmlName C tag = .ok () ∧ validateAttributes C attributes = .ok () ∧
        (id.isSome → attributeId attributes = id) ∧ validateContents C children = .ok () := by
  constructor
  · intro h
    rw [XmlElement.validate, bind_ok_iff] at h
    obtain ⟨_, htag, h⟩ := h
    rw [bind_ok_iff] at h
    obtain ⟨_, hattributes, h⟩ := h
    split at h
    · cases h
    · rename_i hid
      refine ⟨htag, hattributes, fun hsome => ?_, h⟩
      exact not_not.mp fun hne => hid ⟨hsome, hne⟩
  · intro ⟨htag, hattributes, hid, hchildren⟩
    exact validate_element htag hattributes hid hchildren

theorem validateAttributes_cons_iff {key value : String} {rest : List (String × String)} :
    validateAttributes C ((key, value) :: rest) = .ok () ↔
      validateXmlName C key = .ok () ∧ validateAttributes C rest = .ok () := by
  rw [validateAttributes, bind_ok_iff]
  exact ⟨fun ⟨_, hkey, hrest⟩ => ⟨hkey, hrest⟩, fun ⟨hkey, hrest⟩ => ⟨(), hkey, hrest⟩⟩

theorem validateContents_cons_iff {e : XmlElement} {rest : List XmlContent} :
    validateContents C (.element e :: rest) = .ok () ↔
      e.validate C = .ok () ∧ validateContents C rest = .ok () := by
  rw [validateContents, bind_ok_iff]
  exact ⟨fun ⟨_, he, hrest⟩ => ⟨he, hrest⟩, fun ⟨he, hrest⟩ => ⟨(), he, hrest⟩⟩

theorem attributeId_single {key : String} (h : asciiLowercase key = "id") (value : String) :
    attributeId [(key, value)] = some value := by
  simp [attributeId, h]

end Valid

end AuruPm
