import AuruPm.JsonText

/-!
# Project snapshots

The JSON wrappers that external project files are normalized into, as `project_format.rs` reads
and checks them. A struct is read from an object by name or, as serde does, from an array by
position. A reader answers `none` where serde reports an error.
-/

namespace AuruPm

set_option autoImplicit false

open SortedAssoc

inductive ProjectFormat where
  | auru
  | dawproject
  | abletonLiveSet
  | flStudio
  | bitwigProject
  deriving DecidableEq, Repr

/-- The kebab-case name in a snapshot. -/
def ProjectFormat.ofName : String → Option ProjectFormat
  | "auru" => some .auru
  | "dawproject" => some .dawproject
  | "ableton-live-set" => some .abletonLiveSet
  | "fl-studio" => some .flStudio
  | "bitwig-project" => some .bitwigProject
  | _ => none

def ProjectFormat.display : ProjectFormat → String
  | .auru => "Auru"
  | .dawproject => "DAWproject"
  | .abletonLiveSet => "Ableton Live Set"
  | .flStudio => "FL Studio Project"
  | .bitwigProject => "Bitwig Studio Project"

/-- `Error::ProjectFormat`, printed. -/
def projectFormatError {α : Type} (detail : String) : Except String α :=
  .error ("project format: " ++ detail)

/-- A result of serde, with its error printed. -/
def serdeResult {α : Type} : Option α → Except String α
  | some a => .ok a
  | none => .error "serde: invalid document"

/-! XML trees. -/

mutual
inductive XmlElement where
  | mk (tag : String) (id : Option String) (attributes : List (String × String))
    (children : List XmlContent)
inductive XmlContent where
  | element (element : XmlElement)
  | text (text : String)
  | cdata (cdata : String)
  | comment (comment : String)
end

structure XmlDocument where
  root : XmlElement

/-- The character classes of the standard library that XML names are checked with. -/
structure CharClasses where
  isAlphabetic : Char → Bool
  isAlphanumeric : Char → Bool

section Validate
variable (C : CharClasses)

def validateXmlName (name : String) : Except String Unit :=
  let validStart := match name.toList with
    | [] => false
    | c :: _ => C.isAlphabetic c || c = '_' || c = ':'
  let validRest := name.toList.tail.all fun c =>
    C.isAlphanumeric c || c = '_' || c = ':' || c = '-' || c = '.'
  if !validStart || !validRest then
    projectFormatError ("invalid XML name '" ++ name ++ "' in project snapshot")
  else .ok ()

def asciiLowercase (s : String) : String := s.map Char.toLower

/-- The value of the first attribute whose name is `id` in any case. -/
def attributeId (attributes : List (String × String)) : Option String :=
  (attributes.find? fun entry => asciiLowercase entry.1 = "id").map Prod.snd

def validateAttributes : List (String × String) → Except String Unit
  | [] => .ok ()
  | (key, _) :: rest => do
    validateXmlName C key
    validateAttributes rest

mutual
def XmlElement.validate : XmlElement → Except String Unit
  | .mk tag id attributes children => do
    validateXmlName C tag
    validateAttributes C attributes
    if id.isSome ∧ attributeId attributes ≠ id then
      projectFormatError ("XML element '" ++ tag ++ "' has inconsistent merge identity")
    else validateContents children
def validateContents : List XmlContent → Except String Unit
  | [] => .ok ()
  | .element element :: rest => do
    element.validate
    validateContents rest
  | _ :: rest => validateContents rest
end

def XmlDocument.validate (document : XmlDocument) : Except String Unit :=
  document.root.validate C

end Validate

/-! Reading structs. -/

/-- A field of a struct, by its name or by its position. -/
def structField (v : Value) (i : Nat) (name : String) : Option Value :=
  match v with
  | .object fields => get? fields name
  | .array elems => elems[i]?
  | _ => none

/-- Whether a struct with so many fields can be read from a value at all. -/
def isStruct (n : Nat) : Value → Bool
  | .object _ => true
  | .array elems => decide (elems.length ≤ n)
  | _ => false

def readDefault {α : Type} (default : α) (read : Value → Option α) : Option Value → Option α
  | none => some default
  | some v => read v

def readOption {α : Type} (read : Value → Option α) : Value → Option (Option α)
  | .null => some none
  | v => (read v).map some

def readStrings : List (String × Value) → Option (List (String × String))
  | [] => some []
  | (key, v) :: rest => do
    let s ← v.asStr
    let rest ← readStrings rest
    return (key, s) :: rest

def readStringMap : Value → Option (List (String × String))
  | .object fields => readStrings fields
  | _ => none

/-- A struct with one string. -/
def readLeafOf (name : String) (v : Value) : Option String :=
  if isStruct 1 v then (structField v 0 name).bind Value.asStr else none

def readLeaf (v : Value) : Option XmlContent :=
  ((readLeafOf "text" v).map .text).or
    (((readLeafOf "cdata" v).map .cdata).or ((readLeafOf "comment" v).map .comment))

mutual
def readElement : Value → Option XmlElement
  | .object fields => do
    let tag ← (get? fields "tag").bind Value.asStr
    let id ← readDefault none (readOption Value.asStr) (get? fields "id")
    let attributes ← readDefault [] readStringMap (get? fields "attributes")
    let children ← readChildren fields
    return .mk tag id attributes children
  | .array elems => do
    let tag ← elems[0]?.bind Value.asStr
    let id ← readDefault none (readOption Value.asStr) elems[1]?
    let attributes ← readDefault [] readStringMap elems[2]?
    let children ← readFourth elems
    return .mk tag id attributes children
  | _ => none
def readChildren : List (String × Value) → Option (List XmlContent)
  | [] => some []
  | (key, v) :: rest => if key = "children" then readContents v else readChildren rest
def readFourth : List Value → Option (List XmlContent)
  | [] => some []
  | [_] => some []
  | [_, _] => some []
  | [_, _, _] => some []
  | [_, _, _, v] => readContents v
  | _ => none
def readContents : Value → Option (List XmlContent)
  | .array elems => readEach elems
  | _ => none
/-- The variants of a content are tried in order. -/
def readEach : List Value → Option (List XmlContent)
  | [] => some []
  | v :: rest => do
    let content ← ((readElement v).map XmlContent.element).or (readLeaf v)
    let rest ← readEach rest
    return content :: rest
end

def readDocument (v : Value) : Option XmlDocument :=
  if isStruct 1 v then ((structField v 0 "root").bind readElement).map XmlDocument.mk else none

/-! Wrappers. -/

/-- An opaque entry of a DAWproject archive. -/
structure ArchiveResource (Hash : Type) where
  id : String
  data : Option String
  hash : Option Hash
  size : Option Nat

structure PortableSnapshot (Hash : Type) where
  auruPmSnapshot : Nat
  format : ProjectFormat
  project : XmlDocument
  metadata : Option XmlDocument
  resources : List (ArchiveResource Hash)

/-- The wrapper of a format whose documents are taken as they are. -/
structure OpaqueSnapshot where
  auruPmSnapshot : Nat
  format : ProjectFormat
  data : String

/-- What the XML writer is told. -/
inductive XmlEvent where
  | decl
  | empty (tag : String) (attributes : List (String × String))
  | start (tag : String) (attributes : List (String × String))
  | text (text : String)
  /-- A section, split where its text would end it. -/
  | cdata (cdata : String)
  | comment (comment : String)
  | close (tag : String)

/-- Codecs of other libraries, over byte strings and hashes. -/
structure Codecs (Bytes Hash : Type) extends CharClasses where
  /-- `FromStr` of a hash. -/
  parseHash : String → Option Hash
  base64Encode : Bytes → String
  base64Decode : String → Except String Bytes
  /-- Whether the bytes start with `BITWIG_MAGIC`. -/
  isBitwig : Bytes → Bool
  writeXml : List XmlEvent → Except String Bytes
  gzip : Bytes → Except String Bytes
  /-- `flstudio::from_tree` -/
  flFromTree : XmlDocument → Except String Bytes
  /-- Opens an archive entry after these. -/
  zipStart : List (String × Bytes) → String → Except String Unit
  zipWrite : List (String × Bytes) → String → Bytes → Except String Unit
  zipFinish : List (String × Bytes) → Except String Bytes

section Wrappers
variable {Bytes Hash : Type} (F : Formats Bytes Hash) (C : Codecs Bytes Hash)

def readU32 (v : Value) : Option Nat :=
  v.asU64.bind fun n => if n.toNat < 2 ^ 32 then some n.toNat else none

def readU64 (v : Value) : Option Nat := v.asU64.map UInt64.toNat

def readHash (v : Value) : Option Hash := v.asStr.bind C.parseHash

/-- A variant is its name, or an object that holds nothing under its name. -/
def readFormat : Value → Option ProjectFormat
  | .string name => ProjectFormat.ofName name
  | .object [(name, .null)] => ProjectFormat.ofName name
  | _ => none

def readList {α : Type} (read : Value → Option α) : Value → Option (List α)
  | .array elems => elems.mapM read
  | _ => none

def readResource (v : Value) : Option (ArchiveResource Hash) :=
  if isStruct 4 v then do
    let id ← (structField v 0 "id").bind Value.asStr
    let data ← readDefault none (readOption Value.asStr) (structField v 1 "data")
    let hash ← readDefault none (readOption (readHash C)) (structField v 2 "hash")
    let size ← readDefault none (readOption readU64) (structField v 3 "size")
    return ⟨id, data, hash, size⟩
  else none

def readPortable (v : Value) : Option (PortableSnapshot Hash) :=
  if isStruct 5 v then do
    let version ← (structField v 0 "auru_pm_snapshot").bind readU32
    let format ← (structField v 1 "format").bind readFormat
    let project ← (structField v 2 "project").bind readDocument
    let metadata ← readDefault none (readOption readDocument) (structField v 3 "metadata")
    let resources ← readDefault [] (readList (readResource C)) (structField v 4 "resources")
    return ⟨version, format, project, metadata, resources⟩
  else none

def readOpaque (v : Value) : Option OpaqueSnapshot :=
  if isStruct 3 v then do
    let version ← (structField v 0 "auru_pm_snapshot").bind readU32
    let format ← (structField v 1 "format").bind readFormat
    let data ← (structField v 2 "data").bind Value.asStr
    return ⟨version, format, data⟩
  else none

/-- Whether every component of a path is a normal one. -/
def hasNormalComponents (path : String) : Bool :=
  let components := path.toList.splitOn '/'
  components.head? ≠ some [] && components.head? ≠ some ['.'] &&
    components.all fun component => component ≠ ['.', '.']

def validateArchivePath (path : String) : Except String Unit :=
  if path = "" ∨ '\\' ∈ path.toList ∨ hasNormalComponents path = false then
    projectFormatError ("unsafe DAWproject archive path '" ++ path ++ "'")
  else .ok ()

def ArchiveResource.validate (version : Nat) (resource : ArchiveResource Hash) :
    Except String Unit :=
  match version with
  | 1 =>
    if resource.data.isNone then
      projectFormatError ("version-one DAWproject resource '" ++ resource.id ++
        "' is missing inline data")
    else .ok ()
  | 2 =>
    if resource.hash.isNone ∨ resource.size.isNone then
      projectFormatError ("version-two DAWproject resource '" ++ resource.id ++
        "' is missing its hash or size")
    else if resource.data.isSome then
      projectFormatError ("version-two DAWproject resource '" ++ resource.id ++
        "' must not contain inline data")
    else .ok ()
  | _ => .ok ()

def validateResources (version : Nat) : List String → List (ArchiveResource Hash) →
    Except String Unit
  | _, [] => .ok ()
  | seen, resource :: rest => do
    validateArchivePath resource.id
    if resource.id ∈ seen then
      projectFormatError ("duplicate DAWproject archive entry '" ++ resource.id ++ "'")
    else do
      resource.validate version
      validateResources version (resource.id :: seen) rest

def unsupportedSchema {α : Type} (version : Nat) : Except String α :=
  projectFormatError ("unsupported external snapshot schema " ++ toString version ++
    "; expected 1 or 2")

def PortableSnapshot.validate (p : PortableSnapshot Hash) : Except String Unit :=
  if ¬ (1 ≤ p.auruPmSnapshot ∧ p.auruPmSnapshot ≤ 2) then unsupportedSchema p.auruPmSnapshot
  else if p.format = .auru ∨ p.format = .bitwigProject then
    projectFormatError "XML snapshot wrapper declares a non-XML project format"
  else do
    p.project.validate C.toCharClasses
    (p.metadata.map (XmlDocument.validate C.toCharClasses)).getD (.ok ())
    validateResources p.auruPmSnapshot [] p.resources

def validateBitwig (source : Bytes) : Except String Unit :=
  if C.isBitwig source then .ok ()
  else projectFormatError "invalid Bitwig project: missing BtWg header"

def OpaqueSnapshot.decode (p : OpaqueSnapshot) : Except String Bytes :=
  if ¬ (1 ≤ p.auruPmSnapshot ∧ p.auruPmSnapshot ≤ 2) then unsupportedSchema p.auruPmSnapshot
  else if p.format ≠ .bitwigProject then
    projectFormatError ("opaque snapshot cannot declare " ++ p.format.display ++ " format")
  else
    match C.base64Decode p.data with
    | .error e => projectFormatError ("invalid Bitwig snapshot data: " ++ e)
    | .ok bytes => do
      validateBitwig C bytes
      return bytes

/-! Snapshots. -/

/-- A project normalized into canonical JSON bytes. -/
structure ProjectSnapshot (Bytes : Type) where
  format : ProjectFormat
  canonicalBytes : Bytes
  detachedResources : List (String × Bytes)

/-- `None` stands for a native Auru project, which has no wrapper. -/
def portableSnapshotFormat (v : Value) : Except String (Option ProjectFormat) :=
  match v.get "auru_pm_snapshot" with
  | none => .ok none
  | some marker =>
    match marker.asU64 with
    | none => projectFormatError "auru_pm_snapshot marker must be an integer"
    | some marker =>
      if ¬ (1 ≤ marker.toNat ∧ marker.toNat ≤ 2) then unsupportedSchema marker.toNat
      else
        match v.get "format" with
        | none => projectFormatError "external snapshot is missing format"
        | some format => (serdeResult (readFormat format)).map some

/-- The checks of `ProjectSnapshot::from_canonical_bytes` on a document. -/
def snapshotFormat (v : Value) : Except String ProjectFormat := do
  let format := (← portableSnapshotFormat v).getD .auru
  if format = .bitwigProject then
    let p ← serdeResult (readOpaque v)
    let _ ← p.decode C
    return format
  else if format ≠ .auru then
    let p ← serdeResult (readPortable C v)
    p.validate C
    return format
  else return format

/-- `serde_json::from_slice` -/
def parseJson (bytes : Bytes) : Except String Value :=
  match F.decodeValue bytes with
  | .ok v => .ok v
  | .error e => .error ("serde: " ++ e)

def ProjectSnapshot.fromCanonicalBytes (bytes : Bytes) : Except String (ProjectSnapshot Bytes) := do
  let v ← parseJson F bytes
  let format ← snapshotFormat C v
  return ⟨format, F.encodeValue v, []⟩

/-- The wrapper of an XML-backed format. -/
def ProjectSnapshot.portable (snapshot : ProjectSnapshot Bytes) :
    Except String (Option (PortableSnapshot Hash)) :=
  if snapshot.format = .auru ∨ snapshot.format = .bitwigProject then .ok none
  else do
    let v ← parseJson F snapshot.canonicalBytes
    let p ← serdeResult (readPortable C v)
    p.validate C
    return some p

/-! Restoring. -/

mutual
def XmlElement.events : XmlElement → List XmlEvent
  | .mk tag _ attributes children =>
    if children.isEmpty then [.empty tag attributes]
    else .start tag attributes :: (contentEvents children ++ [.close tag])
def contentEvents : List XmlContent → List XmlEvent
  | [] => []
  | .element element :: rest => element.events ++ contentEvents rest
  | .text text :: rest => .text text :: contentEvents rest
  | .cdata cdata :: rest => .cdata cdata :: contentEvents rest
  | .comment comment :: rest => .comment comment :: contentEvents rest
end

def XmlDocument.toXml (document : XmlDocument) : Except String Bytes := do
  document.validate C.toCharClasses
  match C.writeXml (.decl :: document.root.events) with
  | .ok bytes => return bytes
  | .error e => projectFormatError ("snapshot XML: " ++ e)

def maxArchiveEntryBytes : Nat := 2 * 1024 * 1024 * 1024

/-- The bytes of an archive entry: those at hand, or the inline ones. -/
def entryData (detached : List (String × Bytes)) (resource : ArchiveResource Hash) :
    Except String Bytes :=
  match get? detached resource.id with
  | some data => .ok data
  | none =>
    match resource.data with
    | none =>
      projectFormatError ("DAWproject entry '" ++ resource.id ++
        "' has not been hydrated from its asset blob")
    | some encoded =>
      match C.base64Decode encoded with
      | .ok data => .ok data
      | .error e =>
        projectFormatError ("invalid base64 for DAWproject entry '" ++ resource.id ++ "': " ++ e)

variable [DecidableEq Hash]

def checkEntry (resource : ArchiveResource Hash) (data : Bytes) : Except String Unit :=
  if maxArchiveEntryBytes < F.byteLength data then
    projectFormatError ("DAWproject entry '" ++ resource.id ++ "' exceeds the 2048 MiB limit")
  else if (resource.size.all fun expected => F.byteLength data = expected) = false then
    projectFormatError ("DAWproject entry '" ++ resource.id ++ "' has the wrong size: expected " ++
      toString (resource.size.getD 0) ++ ", received " ++ toString (F.byteLength data))
  else if (resource.hash.all fun expected => F.contentHash data = expected) = false then
    projectFormatError ("DAWproject entry '" ++ resource.id ++
      "' has the wrong content hash: expected " ++
      ((resource.hash.map F.hashText).getD "") ++ ", received " ++ F.hashText (F.contentHash data))
  else .ok ()

def hydratedEntry (detached : List (String × Bytes)) (resource : ArchiveResource Hash) :
    Except String Bytes := do
  let data ← entryData C detached resource
  checkEntry F resource data
  return data

abbrev ArchiveEntries (Bytes : Type) := List (String × Bytes)

def zipResult {α : Type} : Except String α → Except String α
  | .ok a => .ok a
  | .error e => projectFormatError ("create DAWproject ZIP: " ++ e)

def ioResult {α : Type} : Except String α → Except String α
  | .ok a => .ok a
  | .error e => .error ("io: " ++ e)

def writeDocument (name : String) (document : XmlDocument) (written : ArchiveEntries Bytes) :
    Except String (ArchiveEntries Bytes) := do
  zipResult (C.zipStart written name)
  let bytes ← document.toXml C
  ioResult (C.zipWrite written name bytes)
  return written ++ [(name, bytes)]

def writeResource (detached : List (String × Bytes)) (resource : ArchiveResource Hash)
    (written : ArchiveEntries Bytes) : Except String (ArchiveEntries Bytes) := do
  validateArchivePath resource.id
  let data ← hydratedEntry F C detached resource
  zipResult (C.zipStart written resource.id)
  ioResult (C.zipWrite written resource.id data)
  return written ++ [(resource.id, data)]

def writeResources (detached : List (String × Bytes)) : List (ArchiveResource Hash) →
    ArchiveEntries Bytes → Except String (ArchiveEntries Bytes)
  | [], written => .ok written
  | resource :: rest, written => do
    let written ← writeResource F C detached resource written
    writeResources detached rest written

def decodeDawproject (p : PortableSnapshot Hash) (detached : List (String × Bytes)) :
    Except String Bytes :=
  if p.format ≠ .dawproject then
    projectFormatError ("expected DAWproject snapshot, found " ++ p.format.display)
  else do
    let written ← writeDocument C "project.xml" p.project []
    let written ← match p.metadata with
      | some metadata => writeDocument C "metadata.xml" metadata written
      | none => pure written
    let written ← writeResources F C detached p.resources written
    match C.zipFinish written with
    | .ok bytes => return bytes
    | .error e => projectFormatError ("finalize DAWproject ZIP: " ++ e)

/-- `restore_bytes`, by the format and the parsed wrapper. -/
def ProjectSnapshot.restoreBytes (snapshot : ProjectSnapshot Bytes) : Except String Bytes :=
  match snapshot.format with
  | .auru => .ok snapshot.canonicalBytes
  | .dawproject => do
    let p ← serdeResult (readPortable C (← parseJson F snapshot.canonicalBytes))
    p.validate C
    decodeDawproject F C p snapshot.detachedResources
  | .abletonLiveSet => do
    let p ← serdeResult (readPortable C (← parseJson F snapshot.canonicalBytes))
    p.validate C
    if p.format ≠ .abletonLiveSet then
      projectFormatError ("expected Ableton snapshot, found " ++ p.format.display)
    else do
      let xml ← p.project.toXml C
      ioResult (C.gzip xml)
  | .flStudio => do
    let p ← serdeResult (readPortable C (← parseJson F snapshot.canonicalBytes))
    p.validate C
    if p.format ≠ .flStudio then
      projectFormatError ("expected FL Studio snapshot, found " ++ p.format.display)
    else C.flFromTree p.project
  | .bitwigProject => do
    let p ← serdeResult (readOpaque (← parseJson F snapshot.canonicalBytes))
    p.decode C

end Wrappers

/-! Readers look at no float. -/

section Floats
open Value

theorem structField_unfloat (v : Value) (i : Nat) (name : String) :
    structField v.unfloat i name = (structField v i name).map unfloat := by
  cases v with
  | object fields => exact get?_unfloatFields fields name
  | array elems => rw [unfloat, unfloatElems_eq, structField, List.getElem?_map]; rfl
  | number n => cases n <;> rfl
  | _ => rfl

theorem isStruct_unfloat (n : Nat) (v : Value) : isStruct n v.unfloat = isStruct n v := by
  cases v with
  | array elems => rw [unfloat, unfloatElems_eq, isStruct, List.length_map]; rfl
  | number n => cases n <;> rfl
  | _ => rfl

theorem readDefault_unfloat {α : Type} {default : α} {read : Value → Option α}
    (h : ∀ v, read v.unfloat = read v) (field : Option Value) :
    readDefault default read (field.map unfloat) = readDefault default read field := by
  cases field with
  | none => rfl
  | some v => exact h v

theorem bind_unfloat {α : Type} {read : Value → Option α} (h : ∀ v, read v.unfloat = read v)
    (field : Option Value) : (field.map unfloat).bind read = field.bind read := by
  cases field with
  | none => rfl
  | some v => exact h v

theorem readOption_unfloat {α : Type} {read : Value → Option α} (h : ∀ v, read v.unfloat = read v)
    (v : Value) : readOption read v.unfloat = readOption read v := by
  have hv := h v
  cases v with
  | null => rfl
  | number n =>
    cases n with
    | float q => exact congrArg (Option.map some) hv
    | _ => rfl
  | array elems => exact congrArg (Option.map some) hv
  | object fields => exact congrArg (Option.map some) hv
  | _ => rfl

theorem readStringMap_unfloat (v : Value) : readStringMap v.unfloat = readStringMap v := by
  cases v with
  | object fields =>
    simp only [unfloat, readStringMap]
    induction fields with
    | nil => rfl
    | cons f fs ih =>
      obtain ⟨k, v⟩ := f
      simp only [unfloatFields, readStrings, asStr_unfloat, ih]
  | number n => cases n <;> rfl
  | _ => rfl

theorem readLeaf_unfloat (v : Value) : readLeaf v.unfloat = readLeaf v := by
  have hleaf : ∀ name, readLeafOf name v.unfloat = readLeafOf name v := by
    intro name
    simp only [readLeafOf, isStruct_unfloat, structField_unfloat, bind_unfloat asStr_unfloat]
  simp only [readLeaf, hleaf]

mutual
theorem readElement_unfloat : (v : Value) → readElement v.unfloat = readElement v
  | .object fields => by
    simp only [unfloat, readElement, get?_unfloatFields, bind_unfloat asStr_unfloat,
      readDefault_unfloat (readOption_unfloat asStr_unfloat),
      readDefault_unfloat readStringMap_unfloat, readChildren_unfloat fields]
  | .array elems => by
    have hfourth := readFourth_unfloat elems
    rw [unfloatElems_eq] at hfourth
    simp only [unfloat, readElement, unfloatElems_eq, List.getElem?_map, bind_unfloat asStr_unfloat,
      readDefault_unfloat (readOption_unfloat asStr_unfloat),
      readDefault_unfloat readStringMap_unfloat, hfourth]
  | .null => rfl
  | .bool _ => rfl
  | .number (.posInt _) => rfl
  | .number (.negInt _) => rfl
  | .number (.float _) => rfl
  | .string _ => rfl
theorem readChildren_unfloat : (fields : List (String × Value)) →
    readChildren (unfloatFields fields) = readChildren fields
  | [] => rfl
  | (key, v) :: rest => by
    simp only [unfloatFields, readChildren, readContents_unfloat v, readChildren_unfloat rest]
theorem readFourth_unfloat : (elems : List Value) →
    readFourth (unfloatElems elems) = readFourth elems
  | [] => rfl
  | [_] => rfl
  | [_, _] => rfl
  | [_, _, _] => rfl
  | [_, _, _, v] => readContents_unfloat v
  | _ :: _ :: _ :: _ :: _ :: _ => rfl
theorem readContents_unfloat : (v : Value) → readContents v.unfloat = readContents v
  | .array elems => readEach_unfloat elems
  | .null => rfl
  | .bool _ => rfl
  | .number (.posInt _) => rfl
  | .number (.negInt _) => rfl
  | .number (.float _) => rfl
  | .string _ => rfl
  | .object _ => rfl
theorem readEach_unfloat : (elems : List Value) → readEach (unfloatElems elems) = readEach elems
  | [] => rfl
  | v :: rest => by
    simp only [unfloatElems, readEach, readElement_unfloat v, readLeaf_unfloat,
      readEach_unfloat rest]
end

theorem readDocument_unfloat (v : Value) : readDocument v.unfloat = readDocument v := by
  simp only [readDocument, isStruct_unfloat, structField_unfloat, bind_unfloat readElement_unfloat]

theorem readU32_unfloat (v : Value) : readU32 v.unfloat = readU32 v := by
  rw [readU32, asU64_unfloat, readU32]

theorem readU64_unfloat (v : Value) : readU64 v.unfloat = readU64 v := by
  rw [readU64, asU64_unfloat, readU64]

theorem readFormat_unfloat (v : Value) : readFormat v.unfloat = readFormat v := by
  cases v with
  | object fields =>
    match fields with
    | [] => rfl
    | [(name, v)] =>
      cases v with
      | number n => cases n <;> rfl
      | _ => rfl
    | (_, v) :: _ :: _ =>
      cases v with
      | number n => cases n <;> rfl
      | _ => rfl
  | number n => cases n <;> rfl
  | _ => rfl

variable {Bytes Hash : Type} {C : Codecs Bytes Hash}

theorem readHash_unfloat (v : Value) : readHash C v.unfloat = readHash C v := by
  rw [readHash, asStr_unfloat, readHash]

theorem readList_unfloat {α : Type} {read : Value → Option α} (h : ∀ v, read v.unfloat = read v)
    (v : Value) : readList read v.unfloat = readList read v := by
  cases v with
  | array elems =>
    simp only [unfloat, unfloatElems_eq, readList]
    induction elems with
    | nil => rfl
    | cons v vs ih => simp only [List.map_cons, List.mapM_cons, h, ih]
  | number n => cases n <;> rfl
  | _ => rfl

theorem readResource_unfloat (v : Value) : readResource C v.unfloat = readResource C v := by
  simp only [readResource, isStruct_unfloat, structField_unfloat, bind_unfloat asStr_unfloat,
    readDefault_unfloat (readOption_unfloat asStr_unfloat),
    readDefault_unfloat (readOption_unfloat readHash_unfloat),
    readDefault_unfloat (readOption_unfloat readU64_unfloat)]

theorem readPortable_unfloat (v : Value) : readPortable C v.unfloat = readPortable C v := by
  simp only [readPortable, isStruct_unfloat, structField_unfloat, bind_unfloat readU32_unfloat,
    bind_unfloat readFormat_unfloat, bind_unfloat readDocument_unfloat,
    readDefault_unfloat (readOption_unfloat readDocument_unfloat),
    readDefault_unfloat (readList_unfloat readResource_unfloat)]

theorem readOpaque_unfloat (v : Value) : readOpaque v.unfloat = readOpaque v := by
  simp only [readOpaque, isStruct_unfloat, structField_unfloat, bind_unfloat readU32_unfloat,
    bind_unfloat readFormat_unfloat, bind_unfloat asStr_unfloat]

theorem portableSnapshotFormat_unfloat (v : Value) :
    portableSnapshotFormat v.unfloat = portableSnapshotFormat v := by
  simp only [portableSnapshotFormat, get_unfloat]
  cases v.get "auru_pm_snapshot" with
  | none => rfl
  | some marker =>
    simp only [Option.map_some, asU64_unfloat]
    cases v.get "format" with
    | none => rfl
    | some format => simp only [Option.map_some, readFormat_unfloat]

theorem snapshotFormat_unfloat (v : Value) : snapshotFormat C v.unfloat = snapshotFormat C v := by
  simp only [snapshotFormat, portableSnapshotFormat_unfloat, readOpaque_unfloat,
    readPortable_unfloat]

end Floats

end AuruPm
