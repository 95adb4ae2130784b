import AuruPm.PortableSnapshot
import AuruPm.Push

/-!
# DAWproject snapshots

How the kernel reads a DAWproject snapshot: the typed reader of the wrapper, and the readers
that go by the document's fields. They agree on every wrapper that does not spell an absent
`metadata` as `null`.
-/

namespace AuruPm

set_option autoImplicit false

open SortedAssoc

section Readers
variable {Bytes Hash : Type} (F : Formats Bytes Hash) (C : Codecs Bytes Hash)

/-- `dawproject::portable` -/
def dawprojectPortable (snapshot : ProjectSnapshot Bytes) : Except String (PortableSnapshot Hash) :=
  if snapshot.format ≠ .dawproject then
    projectFormatError ("expected a DAWproject snapshot, found " ++ snapshot.format.display)
  else do
    match ← snapshot.portable F C with
    | some p => return p
    | none => projectFormatError "DAWproject snapshot is missing its format wrapper"

def requiresResourceHydration (snapshot : ProjectSnapshot Bytes) : Except String Bool := do
  let p ← dawprojectPortable F C snapshot
  return p.resources.any fun resource => resource.data.isNone

structure SnapshotParts where
  project : XmlDocument
  metadata : Option XmlDocument

/-- A document in a field that is there. -/
def readPresent (v : Value) : Option (Option XmlDocument) := (readDocument v).map some

def snapshotParts (snapshot : Value) : Option SnapshotParts := do
  let format ← (snapshot.get "format").bind readFormat
  if format ≠ .dawproject then none
  else do
    let project ← (snapshot.get "project").bind readDocument
    let metadata ← readDefault none readPresent (snapshot.get "metadata")
    return ⟨project, metadata⟩

/-- The last component of a path and what follows its last dot, unless it only starts with one. -/
def pathExtension (path : String) : Option String :=
  let components := (path.toList.splitOn '/').filter fun c => c ≠ [] && c ≠ ['.']
  match components.getLast? with
  | none => none
  | some name =>
    if name = ['.', '.'] ∨ '.' ∉ name then none
    else
      let extension := (name.reverse.takeWhile (· ≠ '.')).reverse
      if extension.length + 1 = name.length then none else some (String.ofList extension)

def classify (path : String) : AssetKind :=
  if asciiLowercase ((pathExtension path).getD "") ∈
      ["wav", "wave", "aif", "aiff", "flac", "mp3", "ogg", "m4a"] then .sample
  else .other

def inlineData (path : String) (resource : Value) : Except String (Option Bytes) :=
  match (resource.get "data").bind Value.asStr with
  | none => .ok none
  | some encoded =>
    match C.base64Decode encoded with
    | .ok bytes => .ok (some bytes)
    | .error e =>
      projectFormatError ("invalid base64 for DAWproject entry '" ++ path ++ "': " ++ e)

def resourceHash (path : String) (resource : Value) (inline : Option Bytes) : Except String Hash :=
  match resource.get "hash" with
  | some hash => serdeResult (readHash C hash)
  | none =>
    match inline with
    | some bytes => .ok (F.contentHash bytes)
    | none =>
      projectFormatError ("DAWproject resource '" ++ path ++
        "' has neither inline data nor a content hash")

def resourceSize (path : String) (resource : Value) (inline : Option Bytes) : Except String Nat :=
  match ((resource.get "size").bind readU64).or (inline.map F.byteLength) with
  | some size => .ok size
  | none => projectFormatError ("DAWproject resource '" ++ path ++ "' has no recorded size")

def snapshotResource (resource : Value) : Except String (SnapshotResource Bytes Hash) :=
  match (resource.get "id").bind Value.asStr with
  | none => projectFormatError "DAWproject resource is missing its path"
  | some path => do
    let inline ← inlineData C path resource
    let hash ← resourceHash F C path resource inline
    let size ← resourceSize F path resource inline
    return ⟨path, hash, size, classify path, inline⟩

/-- `snapshot_resources_from_value` -/
def snapshotResources (snapshot : Value) : Except String (List (SnapshotResource Bytes Hash)) :=
  if (snapshotParts snapshot).isNone then .ok []
  else (((snapshot.get "resources").bind Value.asArray).getD []).mapM (snapshotResource F C)

/-- The readers of the kernel. The format was established when the text was validated. -/
def kernelReaders (integrityProblems : Value → List IntegrityProblem)
    (projectInfo : Value → Option Bytes) : Readers Bytes Hash where
  canonicalBytes bytes := (ProjectSnapshot.fromCanonicalBytes F C bytes).map
    ProjectSnapshot.canonicalBytes
  needsHydration canonical := do
    let format ← snapshotFormat C (← parseJson F canonical)
    if format = .dawproject then requiresResourceHydration F C ⟨format, canonical, []⟩
    else return false
  isDawproject v := (snapshotParts v).isSome
  resources := snapshotResources F C
  integrityProblems := integrityProblems
  projectInfo := projectInfo

end Readers

/-! Lists of readings. -/

theorem mapM_some_iff {α β : Type} {f : α → Option β} {l : List α} {l' : List β} :
    l.mapM f = some l' ↔ List.Forall₂ (fun a b => f a = some b) l l' := by
  induction l generalizing l' with
  | nil => simp [eq_comm]
  | cons a l ih =>
    simp only [List.mapM_cons, Option.bind_eq_bind, Option.bind_eq_some_iff, ih, Option.pure_def,
      Option.some.injEq, List.forall₂_cons_left_iff]
    constructor
    · rintro ⟨b, hb, bs, hbs, rfl⟩
      exact ⟨b, bs, hb, hbs, rfl⟩
    · rintro ⟨b, bs, hb, hbs, rfl⟩
      exact ⟨b, hb, bs, hbs, rfl⟩

theorem mapM_ok_iff {ε α β : Type} {f : α → Except ε β} {l : List α} {l' : List β} :
    l.mapM f = .ok l' ↔ List.Forall₂ (fun a b => f a = .ok b) l l' := by
  induction l generalizing l' with
  | nil => simp [pure, Except.pure, eq_comm]
  | cons a l ih =>
    simp only [List.mapM_cons, bind_ok_iff, ih, pure, Except.pure, Except.ok.injEq,
      List.forall₂_cons_left_iff]
    constructor
    · rintro ⟨b, hb, bs, hbs, rfl⟩
      exact ⟨b, bs, hb, hbs, rfl⟩
    · rintro ⟨b, bs, hb, hbs, rfl⟩
      exact ⟨b, hb, bs, hbs, rfl⟩

/-! Detached resources. -/

section Detached
variable {Bytes Hash : Type} {F : Formats Bytes Hash} {C : Codecs Bytes Hash}

/-- The text of a DAWproject snapshot, with its document and its wrapper. -/
structure IsDawproject (F : Formats Bytes Hash) (C : Codecs Bytes Hash) (bytes : Bytes) (v : Value)
    (p : PortableSnapshot Hash) : Prop where
  decoded : F.decodeValue bytes = .ok v
  format : snapshotFormat C v = .ok .dawproject
  portable : readPortable C v = some p

theorem serdeResult_ok_iff {α : Type} {x : Option α} {a : α} :
    serdeResult x = .ok a ↔ x = some a := by
  cases x <;> simp [serdeResult]

theorem parseJson_ok_iff {bytes : Bytes} {v : Value} :
    parseJson F bytes = .ok v ↔ F.decodeValue bytes = .ok v := by
  unfold parseJson
  cases F.decodeValue bytes <;> simp

theorem portableSnapshotFormat_ok {v : Value} {format : ProjectFormat}
    (h : portableSnapshotFormat v = .ok (some format)) :
    ∃ fields, v = .object fields ∧ (get? fields "format").bind readFormat = some format := by
  unfold portableSnapshotFormat at h
  split at h
  · cases h
  · rename_i marker hmarker
    split at h
    · cases h
    · split at h
      · cases h
      · split at h
        · cases h
        · rename_i value hvalue
          obtain ⟨format', hformat, heq⟩ := map_ok_iff.mp h
          cases heq
          cases v with
          | object fields =>
            refine ⟨fields, rfl, ?_⟩
            have hfield : get? fields "format" = some value := hvalue
            rw [hfield]
            exact serdeResult_ok_iff.mp hformat
          | _ => cases hmarker

/-- What a validated DAWproject document is. -/
theorem snapshotFormat_dawproject {v : Value} (h : snapshotFormat C v = .ok .dawproject) :
    ∃ fields p, v = .object fields ∧ (get? fields "format").bind readFormat = some .dawproject ∧
      readPortable C v = some p ∧ p.validate C = .ok () := by
  unfold snapshotFormat at h
  obtain ⟨format, hformat, h⟩ := bind_ok_iff.mp h
  dsimp only at h
  split at h
  · rename_i hbitwig
    obtain ⟨p, -, h⟩ := bind_ok_iff.mp h
    obtain ⟨_, -, h⟩ := bind_ok_iff.mp h
    rw [hbitwig] at h
    cases h
  · split at h
    · obtain ⟨p, hp, h⟩ := bind_ok_iff.mp h
      obtain ⟨⟨⟩, hvalid, h⟩ := bind_ok_iff.mp h
      have hdaw : format.getD .auru = .dawproject := Except.ok.inj h
      obtain rfl : format = some .dawproject := by
        cases format with
        | none => cases hdaw
        | some format => exact congrArg _ hdaw
      obtain ⟨fields, rfl, hfield⟩ := portableSnapshotFormat_ok hformat
      exact ⟨fields, p, rfl, hfield, serdeResult_ok_iff.mp hp, hvalid⟩
    · rename_i hauru
      rw [not_not.mp hauru] at h
      cases h

/-- The parts of a wrapper are the readings of its fields. -/
theorem readPortable_object_iff {fields : List (String × Value)} {p : PortableSnapshot Hash} :
    readPortable C (.object fields) = some p ↔
      (get? fields "auru_pm_snapshot").bind readU32 = some p.auruPmSnapshot ∧
      (get? fields "format").bind readFormat = some p.format ∧
      (get? fields "project").bind readDocument = some p.project ∧
      readDefault none (readOption readDocument) (get? fields "metadata") = some p.metadata ∧
      readDefault [] (readList (readResource C)) (get? fields "resources") = some p.resources := by
  simp only [readPortable, isStruct, if_true, structField, Option.bind_eq_bind,
    Option.bind_eq_some_iff, Option.pure_def, Option.some.injEq]
  constructor
  · rintro ⟨_, hversion, _, hformat, _, hproject, _, hmetadata, _, hresources, rfl⟩
    exact ⟨hversion, hformat, hproject, hmetadata, hresources⟩
  · rintro ⟨hversion, hformat, hproject, hmetadata, hresources⟩
    exact ⟨_, hversion, _, hformat, _, hproject, _, hmetadata, _, hresources, rfl⟩

theorem readResource_object_iff {fields : List (String × Value)} {r : ArchiveResource Hash} :
    readResource C (.object fields) = some r ↔
      (get? fields "id").bind Value.asStr = some r.id ∧
      readDefault none (readOption Value.asStr) (get? fields "data") = some r.data ∧
      readDefault none (readOption (readHash C)) (get? fields "hash") = some r.hash ∧
      readDefault none (readOption readU64) (get? fields "size") = some r.size := by
  simp only [readResource, isStruct, if_true, structField, Option.bind_eq_bind,
    Option.bind_eq_some_iff, Option.pure_def, Option.some.injEq]
  constructor
  · rintro ⟨_, hid, _, hdata, _, hhash, _, hsize, rfl⟩
    exact ⟨hid, hdata, hhash, hsize⟩
  · rintro ⟨hid, hdata, hhash, hsize⟩
    exact ⟨_, hid, _, hdata, _, hhash, _, hsize, rfl⟩

theorem readOption_some_iff {α : Type} {read : Value → Option α} {field : Option Value} {a : α} :
    readDefault none (readOption read) field = some (some a) ↔
      ∃ v, field = some v ∧ v ≠ .null ∧ read v = some a := by
  cases field with
  | none => simp [readDefault]
  | some v => cases v <;> simp [readDefault, readOption]

theorem readOption_none_iff {α : Type} {read : Value → Option α} {field : Option Value} :
    readDefault none (readOption read) field = some none ↔ field = none ∨ field = some .null := by
  cases field with
  | none => simp [readDefault]
  | some v => cases v <;> simp [readDefault, readOption]

/-- The two readings of a wrapper differ on an absent `metadata` that is spelled out. -/
theorem snapshotParts_isNone_iff {fields : List (String × Value)} {p : PortableSnapshot Hash}
    (hp : readPortable C (.object fields) = some p) (hf : p.format = .dawproject) :
    (snapshotParts (.object fields)).isNone = true ↔ get? fields "metadata" = some .null := by
  obtain ⟨-, hformat, hproject, hmetadata, -⟩ := readPortable_object_iff.mp hp
  rw [hf] at hformat
  simp only [snapshotParts, Value.get, hformat, Option.bind_eq_bind, Option.bind_some, ne_eq,
    not_true_eq_false, if_false, hproject, Option.pure_def]
  cases hm : get? fields "metadata" with
  | none => simp [readDefault]
  | some v =>
    rw [hm] at hmetadata
    cases v with
    | null => simp [readDefault, readPresent, readDocument, isStruct]
    | _ =>
      simp only [readDefault, readOption] at hmetadata
      simp [readDefault, readPresent, hmetadata]

/-- A detached resource is described by the fields of its object. -/
theorem snapshotResource_detached {v : Value} {r : ArchiveResource Hash} {hash : Hash} {size : Nat}
    (hr : readResource C v = some r) (hdata : r.data = none) (hhash : r.hash = some hash)
    (hsize : r.size = some size) {described : SnapshotResource Bytes Hash}
    (h : snapshotResource F C v = .ok described) :
    described = ⟨r.id, hash, size, classify r.id, none⟩ ∧ ∃ fields, v = .object fields := by
  cases v with
  | object fields =>
    obtain ⟨hid, hd, hh, hs⟩ := readResource_object_iff.mp hr
    rw [hdata] at hd
    rw [hhash] at hh
    rw [hsize] at hs
    obtain ⟨hashValue, hfield, -, hread⟩ := readOption_some_iff.mp hh
    obtain ⟨sizeValue, hfield', -, hread'⟩ := readOption_some_iff.mp hs
    have hnone : (get? fields "data").bind Value.asStr = none := by
      rcases readOption_none_iff.mp hd with h | h <;> rw [h] <;> rfl
    simp only [snapshotResource, Value.get, hid, inlineData, hnone, resourceHash, hfield,
      serdeResult, hread, resourceSize, hfield', Option.bind_some, hread', Option.some_or] at h
    exact ⟨(Except.ok.inj h).symm, fields, rfl⟩
  | _ => cases h

theorem snapshotParts_unfloat (v : Value) : snapshotParts v.unfloat = snapshotParts v := by
  have hdocument : ∀ v : Value, readPresent v.unfloat = readPresent v :=
    fun v => by rw [readPresent, readDocument_unfloat, readPresent]
  simp only [snapshotParts, Value.get_unfloat, bind_unfloat readFormat_unfloat,
    bind_unfloat readDocument_unfloat, readDefault_unfloat hdocument]

theorem snapshotResource_unfloat (v : Value) :
    snapshotResource F C v.unfloat = snapshotResource F C v := by
  have hhash : ∀ path inline, resourceHash F C path v.unfloat inline =
      resourceHash F C path v inline := by
    intro path inline
    simp only [resourceHash, Value.get_unfloat]
    cases v.get "hash" with
    | none => rfl
    | some hash => simp only [Option.map_some, readHash_unfloat]
  simp only [snapshotResource, Value.get_unfloat, bind_unfloat Value.asStr_unfloat, inlineData, hhash,
    resourceSize, bind_unfloat readU64_unfloat]

theorem snapshotResources_unfloat (v : Value) :
    snapshotResources F C v.unfloat = snapshotResources F C v := by
  have harray : ((v.unfloat.get "resources").bind Value.asArray).getD [] =
      (((v.get "resources").bind Value.asArray).getD []).map Value.unfloat := by
    rw [Value.get_unfloat]
    cases v.get "resources" with
    | none => rfl
    | some resources =>
      simp only [Option.map_some, Option.bind_some, Value.asArray_unfloat]
      cases resources.asArray <;> rfl
  simp only [snapshotResources, snapshotParts_unfloat, harray, List.mapM_map, Function.comp_def,
    snapshotResource_unfloat]

/-! Validation. -/

theorem ArchiveResource.validate_one_iff {r : ArchiveResource Hash} :
    r.validate 1 = .ok () ↔ r.data.isSome = true := by
  cases h : r.data <;> simp [ArchiveResource.validate, h, projectFormatError]

theorem ArchiveResource.validate_two_iff {r : ArchiveResource Hash} :
    r.validate 2 = .ok () ↔ r.data = none ∧ r.hash.isSome = true ∧ r.size.isSome = true := by
  cases hd : r.data <;> cases hh : r.hash <;> cases hs : r.size <;>
    simp [ArchiveResource.validate, hd, hh, hs, projectFormatError]

theorem validateResources_ok_iff {version : Nat} {seen : List String}
    {resources : List (ArchiveResource Hash)} :
    validateResources version seen resources = .ok () ↔
      (∀ r ∈ resources, validateArchivePath r.id = .ok () ∧ r.id ∉ seen ∧ r.validate version = .ok ()) ∧
        (resources.map ArchiveResource.id).Nodup := by
  induction resources generalizing seen with
  | nil => simp [validateResources]
  | cons r rest ih =>
    simp only [validateResources, bind_ok_iff]
    constructor
    · rintro ⟨⟨⟩, hpath, h⟩
      split at h
      · cases h
      · rename_i hseen
        obtain ⟨⟨⟩, hvalid, h⟩ := bind_ok_iff.mp h
        obtain ⟨hrest, hnodup⟩ := ih.mp h
        refine ⟨?_, List.nodup_cons.mpr ⟨fun hmem => ?_, hnodup⟩⟩
        · intro r' hr'
          rcases List.mem_cons.mp hr' with rfl | hr'
          · exact ⟨hpath, hseen, hvalid⟩
          · obtain ⟨hpath', hseen', hvalid'⟩ := hrest r' hr'
            exact ⟨hpath', fun hmem => hseen' (List.mem_cons_of_mem _ hmem), hvalid'⟩
        · obtain ⟨r', hr', heq⟩ := List.mem_map.mp hmem
          exact (hrest r' hr').2.1 (heq ▸ List.mem_cons_self)
    · rintro ⟨hall, hnodup⟩
      obtain ⟨hpath, hseen, hvalid⟩ := hall r List.mem_cons_self
      obtain ⟨hnew, hnodup⟩ := List.nodup_cons.mp hnodup
      refine ⟨(), hpath, ?_⟩
      rw [if_neg hseen]
      refine bind_ok_iff.mpr ⟨(), hvalid, ih.mpr ⟨fun r' hr' => ?_, hnodup⟩⟩
      obtain ⟨hpath', hseen', hvalid'⟩ := hall r' (List.mem_cons_of_mem _ hr')
      refine ⟨hpath', fun hmem => ?_, hvalid'⟩
      rcases List.mem_cons.mp hmem with heq | hmem
      · exact hnew (heq ▸ List.mem_map_of_mem hr')
      · exact hseen' hmem

theorem PortableSnapshot.validate_ok_iff {p : PortableSnapshot Hash} :
    p.validate C = .ok () ↔ (1 ≤ p.auruPmSnapshot ∧ p.auruPmSnapshot ≤ 2) ∧
      ¬ (p.format = .auru ∨ p.format = .bitwigProject) ∧
      p.project.validate C.toCharClasses = .ok () ∧
      (p.metadata.map (XmlDocument.validate C.toCharClasses)).getD (.ok ()) = .ok () ∧
      validateResources p.auruPmSnapshot [] p.resources = .ok () := by
  unfold PortableSnapshot.validate
  split
  · rename_i hversion
    exact ⟨fun h => (by cases h), fun h => absurd h.1 hversion⟩
  · rename_i hversion
    split
    · rename_i hformat
      exact ⟨fun h => (by cases h), fun h => absurd hformat h.2.1⟩
    · rename_i hformat
      simp only [bind_ok_iff]
      constructor
      · rintro ⟨⟨⟩, hproject, ⟨⟩, hmetadata, hresources⟩
        exact ⟨not_not.mp hversion, hformat, hproject, hmetadata, hresources⟩
      · rintro ⟨-, -, hproject, hmetadata, hresources⟩
        exact ⟨(), hproject, (), hmetadata, hresources⟩

/-! Inlining. -/

/-- A resource object with its bytes in it, as in a version-one snapshot. -/
def inlinedFields (text : String) (fields : List (String × Value)) : List (String × Value) :=
  erase "size" (erase "hash" (SortedAssoc.insert "data" (.string text) fields))

def ArchiveResource.inlined (r : ArchiveResource Hash) (text : String) : ArchiveResource Hash :=
  ⟨r.id, some text, none, none⟩

/-- The bytes found under a resource's path, as text. -/
def entryText (C : Codecs Bytes Hash) (given : List (String × Bytes)) (r : ArchiveResource Hash) :
    String :=
  ((get? given r.id).map C.base64Encode).getD ""

/-- The wrapper in version one, with each resource's bytes as found by its path. -/
def PortableSnapshot.inlined (C : Codecs Bytes Hash) (p : PortableSnapshot Hash)
    (given : List (String × Bytes)) : PortableSnapshot Hash :=
  { p with
    auruPmSnapshot := 1
    resources := p.resources.map fun r => r.inlined (entryText C given r) }

/-- A wrapper object with other resources, as in a version-one snapshot. -/
def recoveredFields (resources : List Value) (fields : List (String × Value)) :
    List (String × Value) :=
  SortedAssoc.insert "auru_pm_snapshot" (.number (.posInt 1))
    (SortedAssoc.insert "resources" (.array resources) fields)

theorem readResource_inlined {fields : List (String × Value)} {r : ArchiveResource Hash}
    {text : String} (h : readResource C (.object fields) = some r) :
    readResource C (.object (inlinedFields text fields)) = some (r.inlined text) := by
  obtain ⟨hid, -, -, -⟩ := readResource_object_iff.mp h
  rw [readResource_object_iff]
  simp [inlinedFields, get?_erase, get?_insert, hid, readDefault, readOption, Value.asStr,
    ArchiveResource.inlined]

theorem readPortable_recovered {fields : List (String × Value)} {p : PortableSnapshot Hash}
    {resources : List Value} {rs : List (ArchiveResource Hash)}
    (h : readPortable C (.object fields) = some p)
    (hrs : List.Forall₂ (fun v r => readResource C v = some r) resources rs) :
    readPortable C (.object (recoveredFields resources fields)) =
      some { p with auruPmSnapshot := 1, resources := rs } := by
  obtain ⟨-, hformat, hproject, hmetadata, -⟩ := readPortable_object_iff.mp h
  rw [readPortable_object_iff]
  simp only [recoveredFields, get?_insert, String.reduceEq, reduceIte, hformat, hproject, hmetadata]
  exact ⟨rfl, trivial, trivial, trivial, mapM_some_iff.mpr hrs⟩

theorem snapshotFormat_recovered {fields : List (String × Value)} {p : PortableSnapshot Hash}
    {resources : List Value} (hformat : (get? fields "format").bind readFormat = some .dawproject)
    (hp : readPortable C (.object (recoveredFields resources fields)) = some p)
    (hvalid : p.validate C = .ok ()) :
    snapshotFormat C (.object (recoveredFields resources fields)) = .ok .dawproject := by
  obtain ⟨format, hfield, hread⟩ := Option.bind_eq_some_iff.mp hformat
  have hmarker : portableSnapshotFormat (.object (recoveredFields resources fields)) =
      .ok (some .dawproject) := by
    simp only [portableSnapshotFormat, Value.get, recoveredFields, get?_insert, String.reduceEq,
      reduceIte, hfield, hread, Value.asU64, serdeResult]
    rfl
  simp only [snapshotFormat, hmarker, hp, serdeResult]
  rw [bind_ok_iff]
  refine ⟨some .dawproject, rfl, ?_⟩
  simp only [Option.getD_some, reduceCtorEq, if_false, ne_eq, not_false_eq_true, if_true]
  exact bind_ok_iff.mpr ⟨p, rfl, bind_ok_iff.mpr ⟨(), hvalid, rfl⟩⟩

/-- A detached version-two wrapper stays valid when its resources are inlined. -/
theorem validate_inlined {p : PortableSnapshot Hash} (h : p.validate C = .ok ())
    (given : List (String × Bytes)) : (p.inlined C given).validate C = .ok () := by
  obtain ⟨-, hformat, hproject, hmetadata, hresources⟩ := PortableSnapshot.validate_ok_iff.mp h
  obtain ⟨hall, hnodup⟩ := validateResources_ok_iff.mp hresources
  refine PortableSnapshot.validate_ok_iff.mpr
    ⟨⟨Nat.le_refl 1, Nat.le_succ 1⟩, hformat, hproject, hmetadata, ?_⟩
  refine validateResources_ok_iff.mpr ⟨?_, ?_⟩
  · intro r hr
    obtain ⟨r', hr', rfl⟩ := List.mem_map.mp hr
    exact ⟨(hall r' hr').1, List.not_mem_nil, ArchiveResource.validate_one_iff.mpr rfl⟩
  · have hids : (p.inlined C given).resources.map ArchiveResource.id =
        p.resources.map ArchiveResource.id := by
      rw [PortableSnapshot.inlined, List.map_map]
      rfl
    rw [hids]
    exact hnodup

/-! The documents stay as deep as they were. -/

theorem mem_inlinedFields {text : String} {fields : List (String × Value)} {e : String × Value}
    (h : e ∈ inlinedFields text fields) : e = ("data", .string text) ∨ e ∈ fields :=
  mem_insert (List.mem_filter.mp (List.mem_filter.mp h).1).1

theorem wf_inlined {text : String} {fields : List (String × Value)}
    (h : (Value.object fields).wf = true) : (Value.object (inlinedFields text fields)).wf = true := by
  obtain ⟨hsorted, hall⟩ := Value.wf_object.mp h
  refine Value.wf_object.mpr
    ⟨sorted_erase (sorted_erase (sorted_insert hsorted _ _) _) _, fun e he => ?_⟩
  rcases mem_inlinedFields he with rfl | he
  · rfl
  · exact hall e he

theorem depth_inlined_le {text : String} {fields : List (String × Value)} {n : Nat}
    (h : (Value.object fields).depth ≤ n) :
    (Value.object (inlinedFields text fields)).depth ≤ n := by
  cases n with
  | zero => cases h
  | succ n =>
    rw [Value.depth_object_le_iff] at h ⊢
    intro e he
    rcases mem_inlinedFields he with rfl | he
    · exact Nat.zero_le n
    · exact h e he

theorem mem_recoveredFields {resources : List Value} {fields : List (String × Value)}
    {e : String × Value} (h : e ∈ recoveredFields resources fields) :
    e = ("auru_pm_snapshot", .number (.posInt 1)) ∨ e = ("resources", .array resources) ∨
      e ∈ fields :=
  (mem_insert h).imp id fun h => mem_insert h

theorem wf_recovered {resources : List Value} {fields : List (String × Value)}
    (h : (Value.object fields).wf = true) (hresources : ∀ v ∈ resources, v.wf = true) :
    (Value.object (recoveredFields resources fields)).wf = true := by
  obtain ⟨hsorted, hall⟩ := Value.wf_object.mp h
  refine Value.wf_object.mpr ⟨sorted_insert (sorted_insert hsorted _ _) _ _, fun e he => ?_⟩
  rcases mem_recoveredFields he with rfl | rfl | he
  · rfl
  · exact Value.wf_array.mpr hresources
  · exact hall e he

theorem depth_recovered_le {resources : List Value} {fields : List (String × Value)} {n : Nat}
    (h : (Value.object fields).depth ≤ n + 1) (hresources : (Value.array resources).depth ≤ n) :
    (Value.object (recoveredFields resources fields)).depth ≤ n + 1 := by
  rw [Value.depth_object_le_iff] at h ⊢
  intro e he
  rcases mem_recoveredFields he with rfl | rfl | he
  · exact Nat.zero_le n
  · exact hresources
  · exact h e he

/-! The text of a snapshot. -/

theorem IsDawproject.congr {bytes bytes' : Bytes} {v w : Value} {p : PortableSnapshot Hash}
    (h : IsDawproject F C bytes v p) (hw : F.decodeValue bytes' = .ok w)
    (heq : w.unfloat = v.unfloat) : IsDawproject F C bytes' w p where
  decoded := hw
  format := by rw [← snapshotFormat_unfloat, heq, snapshotFormat_unfloat, h.format]
  portable := by rw [← readPortable_unfloat, heq, readPortable_unfloat, h.portable]

theorem IsDawproject.encoded {limit : Nat} (hJ : F.ReadsBack limit) {v : Value}
    {p : PortableSnapshot Hash} (hformat : snapshotFormat C v = .ok .dawproject)
    (hp : readPortable C v = some p) (hwf : v.wf = true) (hdepth : v.depth ≤ limit) :
    ∃ w, IsDawproject F C (F.encodeValue v) w p := by
  obtain ⟨w, hw, heq⟩ := hJ.encoded v hwf hdepth
  refine ⟨w, hw, ?_, ?_⟩
  · rw [← snapshotFormat_unfloat, heq, snapshotFormat_unfloat, hformat]
  · rw [← readPortable_unfloat, heq, readPortable_unfloat, hp]

/-- Canonical text holds the same wrapper. -/
theorem IsDawproject.reencoded {limit : Nat} (hJ : F.ReadsBack limit) {bytes : Bytes} {v : Value}
    {p : PortableSnapshot Hash} (h : IsDawproject F C bytes v p) :
    ∃ w, IsDawproject F C (F.encodeValue v) w p :=
  have hshape := hJ.decoded bytes v h.decoded
  IsDawproject.encoded hJ h.format h.portable hshape.1 hshape.2

theorem IsDawproject.fromCanonicalBytes {bytes : Bytes} {v : Value} {p : PortableSnapshot Hash}
    (h : IsDawproject F C bytes v p) :
    ProjectSnapshot.fromCanonicalBytes F C bytes = .ok ⟨.dawproject, F.encodeValue v, []⟩ :=
  bind_ok_iff.mpr
    ⟨v, parseJson_ok_iff.mpr h.decoded, bind_ok_iff.mpr ⟨.dawproject, h.format, rfl⟩⟩

/-! Recovering. -/

/-- A detached resource object, and the same with its bytes in it. -/
def Inlines (C : Codecs Bytes Hash) (given : List (String × Bytes)) (v v' : Value) : Prop :=
  ∃ fields r, v = .object fields ∧ readResource C v = some r ∧
    v' = .object (inlinedFields (entryText C given r) fields)

theorem forall₂_read_inlined {given : List (String × Bytes)} {elems elems' : List Value}
    {rs : List (ArchiveResource Hash)} (h : List.Forall₂ (Inlines C given) elems elems')
    (hrs : List.Forall₂ (fun v r => readResource C v = some r) elems rs) :
    List.Forall₂ (fun v r => readResource C v = some r) elems'
      (rs.map fun r => r.inlined (entryText C given r)) := by
  induction h generalizing rs with
  | nil =>
    cases hrs
    exact .nil
  | cons h _ ih =>
    cases hrs with
    | cons hr hrs =>
      obtain ⟨fields, r, rfl, hread, rfl⟩ := h
      cases hread.symm.trans hr
      exact .cons (readResource_inlined hr) (ih hrs)

theorem forall₂_inlined_shape {given : List (String × Bytes)} {elems elems' : List Value} {n : Nat}
    (h : List.Forall₂ (Inlines C given) elems elems') (hwf : ∀ v ∈ elems, v.wf = true)
    (hdepth : ∀ v ∈ elems, v.depth ≤ n) :
    (∀ v ∈ elems', v.wf = true) ∧ ∀ v ∈ elems', v.depth ≤ n := by
  induction h with
  | nil => exact ⟨hwf, hdepth⟩
  | cons h _ ih =>
    obtain ⟨fields, r, rfl, -, rfl⟩ := h
    have hrest := ih (fun v hv => hwf v (List.mem_cons_of_mem _ hv))
      fun v hv => hdepth v (List.mem_cons_of_mem _ hv)
    refine ⟨fun v hv => ?_, fun v hv => ?_⟩
    · rcases List.mem_cons.mp hv with rfl | hv
      · exact wf_inlined (hwf _ List.mem_cons_self)
      · exact hrest.1 v hv
    · rcases List.mem_cons.mp hv with rfl | hv
      · exact depth_inlined_le (hdepth _ List.mem_cons_self)
      · exact hrest.2 v hv

/-- A detached resource of a document, as both of its readers see it. -/
def DetachedAt (C : Codecs Bytes Hash) (v : Value) (d : SnapshotResource Bytes Hash) : Prop :=
  ∃ fields r, v = .object fields ∧ readResource C v = some r ∧ r.id = d.path ∧
    r.hash = some d.hash ∧ r.size = some d.size

theorem forall₂_detachedAt {elems : List Value} {rs : List (ArchiveResource Hash)}
    {detached : List (SnapshotResource Bytes Hash)}
    (hrs : List.Forall₂ (fun v r => readResource C v = some r) elems rs)
    (hdetached : List.Forall₂ (fun v d => snapshotResource F C v = .ok d) elems detached)
    (hall : ∀ r ∈ rs, r.data = none ∧ r.hash.isSome = true ∧ r.size.isSome = true) :
    List.Forall₂ (DetachedAt C) elems detached ∧
      detached.map SnapshotResource.path = rs.map ArchiveResource.id ∧
      ∀ r ∈ rs, ∃ d ∈ detached, r.id = d.path ∧ r.hash = some d.hash ∧ r.size = some d.size := by
  induction hrs generalizing detached with
  | nil =>
    cases hdetached
    exact ⟨.nil, rfl, fun _ hr => absurd hr List.not_mem_nil⟩
  | @cons v r elems rs hr _ ih =>
    cases hdetached with
    | cons hd hdetached =>
      obtain ⟨hdata, hhash, hsize⟩ := hall r List.mem_cons_self
      obtain ⟨hash, hhash⟩ := Option.isSome_iff_exists.mp hhash
      obtain ⟨size, hsize⟩ := Option.isSome_iff_exists.mp hsize
      obtain ⟨rfl, fields, rfl⟩ := snapshotResource_detached hr hdata hhash hsize hd
      obtain ⟨hrest, hpaths, hdescribed⟩ :=
        ih hdetached fun r' hr' => hall r' (List.mem_cons_of_mem _ hr')
      refine ⟨.cons ⟨fields, r, rfl, hr, rfl, hhash, hsize⟩ hrest, ?_, fun r' hr' => ?_⟩
      · rw [List.map_cons, List.map_cons, hpaths]
      · rcases List.mem_cons.mp hr' with rfl | hr'
        · exact ⟨_, List.mem_cons_self, rfl, hhash, hsize⟩
        · obtain ⟨d, hd, hsame⟩ := hdescribed r' hr'
          exact ⟨d, List.mem_cons_of_mem _ hd, hsame⟩

/-- The document with its resources inlined is the wrapper with its resources inlined. -/
theorem recovered_isDawproject {limit : Nat} (hJ : F.ReadsBack limit) {bytes : Bytes}
    {fields : List (String × Value)} {p : PortableSnapshot Hash} {given : List (String × Bytes)}
    {elems elems' : List Value} (h : IsDawproject F C bytes (.object fields) p)
    (helems : get? fields "resources" = some (.array elems))
    (hinlines : List.Forall₂ (Inlines C given) elems elems') :
    ∃ w, IsDawproject F C (F.encodeValue (.object (recoveredFields elems' fields))) w
      (p.inlined C given) := by
  obtain ⟨hwf, hdepth⟩ := hJ.decoded bytes _ h.decoded
  obtain ⟨fields', p', heq, hformat, hp', hvalid⟩ := snapshotFormat_dawproject h.format
  cases heq
  obtain rfl : p = p' := Option.some.inj (h.portable.symm.trans hp')
  have hrs : List.Forall₂ (fun v r => readResource C v = some r) elems p.resources := by
    obtain ⟨-, -, -, -, hresources⟩ := readPortable_object_iff.mp hp'
    rw [helems] at hresources
    exact mapM_some_iff.mp hresources
  have hread := readPortable_recovered hp' (forall₂_read_inlined hinlines hrs)
  have harray := Value.wf_array.mp (Value.wf_of_get? hwf helems)
  cases limit with
  | zero => cases hdepth
  | succ n =>
    have helem : ∀ v ∈ elems, v.depth ≤ n - 1 := by
      intro v hv
      have := Value.depth_lt_of_get? helems
      have := Value.depth_lt_array hv
      omega
    obtain ⟨hwf', hdepth'⟩ := forall₂_inlined_shape hinlines harray helem
    have hdeep : (Value.array elems').depth ≤ n := by
      have := Value.depth_lt_of_get? helems
      have hn : n - 1 + 1 = n := by
        simp only [Value.depth] at this hdepth
        omega
      rw [← hn]
      exact Value.depth_array_le_iff.mpr hdepth'
    exact IsDawproject.encoded hJ
      (snapshotFormat_recovered hformat hread (validate_inlined hvalid given)) hread
      (wf_recovered hwf hwf') (depth_recovered_le hdepth hdeep)

/-! Restoring. -/

variable [DecidableEq Hash]

theorem hydratedEntry_inlined {given : List (String × Bytes)} {r : ArchiveResource Hash}
    {bytes : Bytes} (hgiven : get? given r.id = some bytes)
    (hhash : r.hash = some (F.contentHash bytes)) (hsize : r.size = some (F.byteLength bytes))
    (hbase : C.base64Decode (C.base64Encode bytes) = .ok bytes) :
    hydratedEntry F C [] (r.inlined (C.base64Encode bytes)) = hydratedEntry F C given r := by
  have hinline : entryData C [] (r.inlined (C.base64Encode bytes)) = .ok bytes := by
    simp only [entryData, get?_nil, ArchiveResource.inlined, hbase]
  have hdata : entryData C given r = .ok bytes := by
    simp only [entryData, hgiven]
  have hsizes : (r.size.all fun expected => F.byteLength bytes = expected) = true := by
    rw [hsize]
    simp
  have hhashes : (r.hash.all fun expected => F.contentHash bytes = expected) = true := by
    rw [hhash]
    simp
  have hcheck : checkEntry F (r.inlined (C.base64Encode bytes)) bytes = checkEntry F r bytes := by
    unfold checkEntry
    rw [hsizes, hhashes]
    rfl
  unfold hydratedEntry
  rw [hinline, hdata]
  exact congrArg (· >>= fun _ => Except.ok bytes) hcheck

theorem writeResources_inlined {given : List (String × Bytes)} {rs : List (ArchiveResource Hash)}
    (h : ∀ r ∈ rs, ∃ bytes, get? given r.id = some bytes ∧ r.hash = some (F.contentHash bytes) ∧
      r.size = some (F.byteLength bytes) ∧ C.base64Decode (C.base64Encode bytes) = .ok bytes)
    (written : ArchiveEntries Bytes) :
    writeResources F C [] (rs.map fun r => r.inlined (entryText C given r)) written =
      writeResources F C given rs written := by
  induction rs generalizing written with
  | nil => rfl
  | cons r rest ih =>
    obtain ⟨bytes, hgiven, hhash, hsize, hbase⟩ := h r List.mem_cons_self
    have htext : entryText C given r = C.base64Encode bytes := by
      rw [entryText, hgiven]
      rfl
    have hfirst : writeResource F C [] (r.inlined (entryText C given r)) written =
        writeResource F C given r written := by
      unfold writeResource
      rw [htext, hydratedEntry_inlined hgiven hhash hsize hbase]
      rfl
    simp only [List.map_cons, writeResources, hfirst,
      ih fun r' hr' => h r' (List.mem_cons_of_mem _ hr')]

/-- Inlining the bytes at hand does not change the archive. -/
theorem decodeDawproject_inlined {given : List (String × Bytes)} {p : PortableSnapshot Hash}
    (h : ∀ r ∈ p.resources, ∃ bytes, get? given r.id = some bytes ∧
      r.hash = some (F.contentHash bytes) ∧ r.size = some (F.byteLength bytes) ∧
      C.base64Decode (C.base64Encode bytes) = .ok bytes) :
    decodeDawproject F C (p.inlined C given) [] = decodeDawproject F C p given := by
  simp only [decodeDawproject, PortableSnapshot.inlined, writeResources_inlined h]

theorem IsDawproject.restoreBytes {bytes : Bytes} {v : Value} {p : PortableSnapshot Hash}
    (h : IsDawproject F C bytes v p) (detached : List (String × Bytes)) :
    ProjectSnapshot.restoreBytes F C ⟨.dawproject, bytes, detached⟩ =
      decodeDawproject F C p detached := by
  obtain ⟨_, p', -, -, hp', hvalid⟩ := snapshotFormat_dawproject h.format
  obtain rfl : p = p' := Option.some.inj (h.portable.symm.trans hp')
  simp only [ProjectSnapshot.restoreBytes, parseJson_ok_iff.mpr h.decoded]
  change (serdeResult (readPortable C v) >>= fun p => p.validate C >>= fun _ =>
    decodeDawproject F C p detached) = _
  rw [serdeResult_ok_iff.mpr h.portable]
  change (p.validate C >>= fun _ => decodeDawproject F C p detached) = _
  rw [hvalid]
  rfl

/-- What a snapshot with these resources at hand restores to. -/
def restored (F : Formats Bytes Hash) (C : Codecs Bytes Hash) (bytes : Bytes)
    (detached : List (String × Bytes)) : Except String Bytes := do
  let snapshot ← ProjectSnapshot.fromCanonicalBytes F C bytes
  ProjectSnapshot.restoreBytes F C { snapshot with detachedResources := detached }

theorem IsDawproject.restored {limit : Nat} (hJ : F.ReadsBack limit) {bytes : Bytes} {v : Value}
    {p : PortableSnapshot Hash} (h : IsDawproject F C bytes v p) (detached : List (String × Bytes)) :
    restored F C bytes detached = decodeDawproject F C p detached := by
  obtain ⟨w, hw⟩ := h.reencoded hJ
  unfold AuruPm.restored
  rw [h.fromCanonicalBytes]
  exact hw.restoreBytes detached

end Detached

end AuruPm
