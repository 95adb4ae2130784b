import AuruPm.FlStream
import AuruPm.SnapshotValue
import Mathlib.Data.List.Sort

/-!
# Reading project files

How `project_format.rs` normalizes a project file: the XML reader of Live Sets and of DAWproject
archives, and `ProjectSnapshot::from_source_bytes`.
-/

namespace AuruPm

set_option autoImplicit false

open SortedAssoc

/-- An attribute as the XML library hands it out, decoded and unescaped. -/
structure ReadAttribute where
  key : Except String String
  value : Except String String

/-- What the XML library reports. -/
inductive ReadEvent where
  | start (name : Except String String) (attributes : List (Except String ReadAttribute))
  | empty (name : Except String String) (attributes : List (Except String ReadAttribute))
  | close
  | text (unescaped : Except String String)
  | cdata (decoded : Except String String)
  | comment (decoded : Except String String)
  /-- A declaration, a processing instruction or a document type. -/
  | other
  | error (detail : String)

/-- An entry of an archive, with a reader that stops after so many bytes. -/
structure ZipEntry (Bytes : Type) where
  name : String
  size : Nat
  read : Nat → Except String Bytes

/-- The readers of other libraries, over byte strings. -/
structure SourceCodecs (Bytes : Type) where
  readXml : Bytes → List ReadEvent
  /-- Whether the bytes start with the magic number of gzip. -/
  isGzip : Bytes → Bool
  /-- A decoder that stops after so many bytes. -/
  gunzip : Bytes → Nat → Except String Bytes
  zipEntries : Bytes → Except String (List (Except String (ZipEntry Bytes)))
  /-- `Stream::decode`, `redact` and `tree::to_document` -/
  flToTree : Bytes → Except String XmlDocument

/-! XML. -/

def xmlResult {α : Type} (label : String) : Except String α → Except String α
  | .ok a => .ok a
  | .error e => projectFormatError (label ++ ": " ++ e)

def collectAttributes (tag : String) : List (Except String ReadAttribute) →
    List (String × String) → Except String (List (String × String))
  | [], attributes => .ok attributes
  | read :: rest, attributes => do
    let read ← xmlResult "XML attribute" read
    let key ← xmlResult "XML attribute name" read.key
    let value ← xmlResult "XML attribute value" read.value
    if (get? attributes key).isSome then
      projectFormatError ("XML element '" ++ tag ++ "' contains duplicate attribute '" ++ key ++ "'")
    else collectAttributes tag rest (SortedAssoc.insert key value attributes)

/-- `XmlElement::from_start` -/
def XmlElement.fromStart (name : Except String String)
    (attributes : List (Except String ReadAttribute)) : Except String XmlElement := do
  let tag ← xmlResult "XML element name" name
  let attributes ← collectAttributes tag attributes []
  return .mk tag (attributeId attributes) attributes []

def XmlElement.push (content : XmlContent) : XmlElement → XmlElement
  | .mk tag id attributes children => .mk tag id attributes (children ++ [content])

/-- The elements that are open, the innermost first, and the one that was closed last of all. -/
structure ParseState where
  stack : List XmlElement
  root : Option XmlElement

def appendElement (element : XmlElement) (s : ParseState) : Except String ParseState :=
  match s.stack with
  | parent :: stack => .ok ⟨parent.push (.element element) :: stack, s.root⟩
  | [] =>
    match s.root with
    | none => .ok ⟨[], some element⟩
    | some _ => projectFormatError "XML document contains more than one root element"

def appendContent (label : String) (content : XmlContent) (s : ParseState) :
    Except String ParseState :=
  match s.stack with
  | parent :: stack => .ok ⟨parent.push content :: stack, s.root⟩
  | [] => projectFormatError (label ++ " contains text outside its root element")

/-- Whether trimming leaves nothing. -/
def isBlank (text : String) : Bool := text.toList.all FlStudio.isWhitespace

/-- One round of the loop of `XmlDocument::parse`. -/
def parseEvent (label : String) (event : ReadEvent) (s : ParseState) : Except String ParseState :=
  match event with
  | .start name attributes => do
    let element ← XmlElement.fromStart name attributes
    return ⟨element :: s.stack, s.root⟩
  | .empty name attributes => do
    let element ← XmlElement.fromStart name attributes
    appendElement element s
  | .close =>
    match s.stack with
    | [] => projectFormatError (label ++ " has an unmatched closing tag")
    | element :: stack => appendElement element ⟨stack, s.root⟩
  | .text unescaped => do
    let text ← xmlResult label unescaped
    if isBlank text then return s else appendContent label (.text text) s
  | .cdata decoded => do
    let cdata ← xmlResult label decoded
    appendContent label (.cdata cdata) s
  | .comment decoded => do
    let comment ← xmlResult label decoded
    if s.stack.isEmpty then return s else appendContent label (.comment comment) s
  | .other => .ok s
  | .error detail => xmlResult label (.error detail)

def parseEvents (label : String) : List ReadEvent → ParseState → Except String ParseState
  | [], s => .ok s
  | event :: rest, s => do
    let s ← parseEvent label event s
    parseEvents label rest s

def maxXmlBytes : Nat := 256 * 1024 * 1024

def mebibytes (limit : Nat) : String := toString (limit / (1024 * 1024)) ++ " MiB"

section Source
variable {Bytes Hash : Type} (F : Formats Bytes Hash) (C : Codecs Bytes Hash)
variable (R : SourceCodecs Bytes)

def XmlDocument.parse (xml : Bytes) (label : String) : Except String XmlDocument :=
  if maxXmlBytes < F.byteLength xml then
    projectFormatError (label ++ " exceeds the " ++ mebibytes maxXmlBytes ++ " XML limit")
  else do
    let s ← parseEvents label (R.readXml xml) ⟨[], none⟩
    if s.stack ≠ [] then
      projectFormatError (label ++ " ended before all XML elements were closed")
    else
      match s.root with
      | none => projectFormatError (label ++ " does not contain a root XML element")
      | some root => do
        (XmlDocument.mk root).validate C.toCharClasses
        return ⟨root⟩

def readLimited (read : Nat → Except String Bytes) (limit : Nat) (label : String) :
    Except String Bytes := do
  let bytes ← ioResult (read (limit + 1))
  if limit < F.byteLength bytes then
    projectFormatError (label ++ " exceeds the " ++ mebibytes limit ++ " limit")
  else return bytes

/-! Live Sets. -/

/-- The XML of a set, compressed or not. -/
def abletonXml (source : Bytes) : Except String Bytes :=
  if R.isGzip source then readLimited F (R.gunzip source) maxXmlBytes "Ableton Live Set XML"
  else if maxXmlBytes < F.byteLength source then
    projectFormatError ("Ableton Live Set XML exceeds the " ++ mebibytes maxXmlBytes ++ " limit")
  else .ok source

def encodeAbleton (source : Bytes) : Except String (PortableSnapshot Hash) := do
  let xml ← abletonXml F R source
  let project ← XmlDocument.parse F C R xml "Ableton Live Set"
  return ⟨1, .abletonLiveSet, project, none, []⟩

/-! DAWproject archives. -/

def maxArchiveEntries : Nat := 100000

/-- What the entries so far hold. -/
structure ArchiveState (Bytes Hash : Type) where
  project : Option XmlDocument
  metadata : Option XmlDocument
  resources : List (ArchiveResource Hash)
  detached : List (String × Bytes)
  paths : List String

def ArchiveState.initial : ArchiveState Bytes Hash := ⟨none, none, [], [], []⟩

/-- `ZipFile::is_dir`, by the name of the entry. -/
def isDirName (name : String) : Bool :=
  name.toList.getLast? = some '/' || name.toList.getLast? = some '\\'

def entryLimit (path : String) : Nat :=
  if path = "project.xml" ∨ path = "metadata.xml" then maxXmlBytes else maxArchiveEntryBytes

def entryBytes (entry : ZipEntry Bytes) : Except String Bytes :=
  readLimited F entry.read (entryLimit entry.name) ("DAWproject entry '" ++ entry.name ++ "'")

/-- What stands in the snapshot for an entry that is kept beside it. -/
def detachedResource (entry : String × Bytes) : ArchiveResource Hash :=
  ⟨entry.1, none, some (F.contentHash entry.2), some (F.byteLength entry.2)⟩

/-- What an entry that was read is taken for. -/
def storeEntry (path : String) (bytes : Bytes) (s : ArchiveState Bytes Hash) :
    Except String (ArchiveState Bytes Hash) :=
  if path = "project.xml" then do
    let project ← XmlDocument.parse F C R bytes "DAWproject project.xml"
    return { s with project := some project, paths := path :: s.paths }
  else if path = "metadata.xml" then do
    let metadata ← XmlDocument.parse F C R bytes "DAWproject metadata.xml"
    return { s with metadata := some metadata, paths := path :: s.paths }
  else
    return { s with
      resources := s.resources ++ [detachedResource F (path, bytes)]
      detached := SortedAssoc.insert path bytes s.detached
      paths := path :: s.paths }

def readEntry (entry : ZipEntry Bytes) (s : ArchiveState Bytes Hash) :
    Except String (ArchiveState Bytes Hash) :=
  if isDirName entry.name then .ok s
  else do
    validateArchivePath entry.name
    if entry.name ∈ s.paths then
      projectFormatError ("duplicate DAWproject archive entry '" ++ entry.name ++ "'")
    else if entryLimit entry.name < entry.size then
      projectFormatError ("DAWproject entry '" ++ entry.name ++ "' exceeds the " ++
        mebibytes (entryLimit entry.name) ++ " limit")
    else do
      let bytes ← entryBytes F entry
      storeEntry F C R entry.name bytes s

def readEntries : List (Except String (ZipEntry Bytes)) → ArchiveState Bytes Hash →
    Except String (ArchiveState Bytes Hash)
  | [], s => .ok s
  | .error e :: _, _ => projectFormatError ("invalid ZIP entry: " ++ e)
  | .ok entry :: rest, s => do
    let s ← readEntry F C R entry s
    readEntries rest s

def sortResources (resources : List (ArchiveResource Hash)) : List (ArchiveResource Hash) :=
  resources.insertionSort fun left right => left.id ≤ right.id

def encodeDawproject (source : Bytes) :
    Except String (PortableSnapshot Hash × List (String × Bytes)) :=
  match R.zipEntries source with
  | .error e => projectFormatError ("invalid DAWproject ZIP: " ++ e)
  | .ok entries =>
    if maxArchiveEntries < entries.length then
      projectFormatError ("DAWproject contains too many archive entries (" ++
        toString entries.length ++ " > " ++ toString maxArchiveEntries ++ ")")
    else do
      let s ← readEntries F C R entries ArchiveState.initial
      match s.project with
      | none => projectFormatError "DAWproject archive is missing project.xml"
      | some project =>
        return (⟨2, .dawproject, project, s.metadata, sortResources s.resources⟩, s.detached)

/-! All formats. -/

def OpaqueSnapshot.toValue (p : OpaqueSnapshot) : Value :=
  structValue
    [("auru_pm_snapshot", .number (.ofInt p.auruPmSnapshot)), ("format", .string p.format.name),
      ("data", .string p.data)]

def encodeBitwig (source : Bytes) : Except String OpaqueSnapshot := do
  validateBitwig C source
  return ⟨1, .bitwigProject, C.base64Encode source⟩

/-- The document of a project file, and the archive entries kept beside it. -/
def encodeSource (format : ProjectFormat) (source : Bytes) :
    Except String (Value × List (String × Bytes)) :=
  match format with
  | .auru => do
    let v ← parseJson F source
    return (v, [])
  | .dawproject => do
    let (p, detached) ← encodeDawproject F C R source
    return (p.toValue F, detached)
  | .abletonLiveSet => do
    let p ← encodeAbleton F C R source
    return (p.toValue F, [])
  | .flStudio => do
    let project ← R.flToTree source
    let p : PortableSnapshot Hash := ⟨1, .flStudio, project, none, []⟩
    return (p.toValue F, [])
  | .bitwigProject => do
    let p ← encodeBitwig C source
    return (p.toValue, [])

variable (blob : Value → Except String Bytes)

/-- `ProjectSnapshot::from_source_bytes` -/
def ProjectSnapshot.fromSourceBytes (format : ProjectFormat) (source : Bytes) :
    Except String (ProjectSnapshot Bytes) := do
  let (value, detached) ← encodeSource F C R format source
  let bytes ← blob value
  return ⟨format, bytes, detached⟩

end Source

end AuruPm
