import AuruPm.FlCodec
import AuruPm.SnapshotValue

/-!
# FL Studio projects as trees

`flstudio/tree.rs`: the events of a project, grouped under the cursors of its channels and
patterns, and back. Redaction happens before, in `flstudio/mod.rs`.
-/

namespace AuruPm

set_option autoImplicit false

open SortedAssoc

namespace FlStudio

def rootTag : String := "FLProject"

def eventTag : String := "E"

def eventNewChannel : UInt8 := 64

def eventNewPattern : UInt8 := 65

def eventRegName : UInt8 := 200

def textEvents : List UInt8 :=
  [193, 194, 195, 196, 197, 199, 200, 201, 202, 203, 204, 205, 206, 207]

/-- `BTreeMap::from` -/
def attributesFrom (entries : List (String × String)) : List (String × String) :=
  entries.foldl (fun m e => SortedAssoc.insert e.1 e.2 m) []

/-! Numbers. -/

def i16Text (n : Int16) : String :=
  if n.toInt < 0 then "-" ++ toString n.toInt.natAbs else toString n.toInt.natAbs

/-- `str::parse` of an unsigned number with so many bits. -/
def parseUnsigned (bits : Nat) (text : String) : Option Nat :=
  (parseUsize text.toList).filter (· < 2 ^ bits)

def parseI16 (text : String) : Option Int16 :=
  match text.toList with
  | '-' :: digits =>
    if digits ≠ [] ∧ digits.all Char.isDigit = true ∧ digitsValue digits ≤ 2 ^ 15 then
      some (Int16.ofInt (-(digitsValue digits : Int)))
    else none
  | _ => (parseUnsigned 15 text).map fun n : Nat => Int16.ofInt n

/-- The payload as a number; a text has none. -/
def Event.asU32 (event : Event) : Option Nat :=
  if event.isVariable then none else some (fromLeBytes event.payload)

/-! Texts. -/

/-- A character as UTF-16. -/
def encodeUtf16 (c : Char) : List UInt16 :=
  if c.toNat < 0x10000 then [c.toNat.toUInt16]
  else
    let n := c.toNat - 0x10000
    [(0xD800 + n / 0x400).toUInt16, (0xDC00 + n % 0x400).toUInt16]

/-- Text the way FL Studio writes it, terminator included. -/
def encodeText (text encoding : String) : List UInt8 :=
  if encoding = "ascii" then (text.toList.map fun c => c.toNat.toUInt8) ++ [0]
  else (text.toList.flatMap encodeUtf16).flatMap (fun unit => toLeBytes 2 unit.toNat) ++ [0, 0]

/-- The decoded text of an event, if decoding it is lossless. -/
def readableText (event : Event) (utf16 : Bool) : Option (String × String) :=
  if event.id ∉ textEvents then none
  else
    let ascii := decide (event.id = eventVersion) || !utf16
    let (text, encoding) :=
      if ascii then (decodeAscii event.payload, "ascii") else (decodeUtf16 event.payload, "utf16")
    if encodeText text encoding = event.payload then some (text, encoding) else none

/-! The tree. -/

section Tree
variable (base64Encode : List UInt8 → String) (base64Decode : String → Except String (List UInt8))

def eventAttributes (event : Event) (utf16 : Bool) : List (String × String) :=
  let attributes := attributesFrom [("T", toString event.id.toNat)]
  if !event.isVariable then
    SortedAssoc.insert "V" (toString (event.asU32.getD 0)) attributes
  else
    match readableText event utf16 with
    | some (text, encoding) =>
      SortedAssoc.insert "Enc" encoding (SortedAssoc.insert "V" text attributes)
    | none =>
      if event.payload ≠ [] then SortedAssoc.insert "B" (base64Encode event.payload) attributes
      else attributes

def encodeEvent (event : Event) (utf16 : Bool) : XmlElement :=
  .mk eventTag none (eventAttributes base64Encode event utf16) []

/-- A group of events, and what identifies it. -/
def group (tag : String) (identity : Option String) (children : List XmlContent) : XmlElement :=
  .mk tag identity (attributesFrom (identity.toList.map fun identity => ("Id", identity))) children

/-- The groups from an open one on, with what it has so far. -/
def sections (utf16 : Bool) (tag : String) (identity : Option String) (children : List XmlContent) :
    List Event → List XmlContent
  | [] => [.element (group tag identity children)]
  | event :: rest =>
    let encoded := XmlContent.element (encodeEvent base64Encode event utf16)
    if event.id = eventNewChannel ∨ event.id = eventNewPattern then
      .element (group tag identity children) ::
        sections utf16 (if event.id = eventNewChannel then "Channel" else "Pattern")
          (some (toString (event.asU32.getD 0))) [encoded] rest
    else sections utf16 tag identity (children ++ [encoded]) rest

def toDocument (stream : Stream) : XmlDocument :=
  ⟨.mk rootTag none
    (attributesFrom [("Format", i16Text stream.header.format),
      ("Channels", toString stream.header.channels.toNat),
      ("Ppq", toString stream.header.ppq.toNat)])
    (sections base64Encode (usesUtf16 stream.majorVersion) "Preamble" none [] stream.events)⟩

def parseAttribute {α : Type} (parse : String → Option α) (element : XmlElement) (name : String) :
    Except String α :=
  match element.attributeValue name with
  | none => projectFormatError ("<" ++ element.tag ++ "> is missing its " ++ name)
  | some raw =>
    match parse raw with
    | some a => .ok a
    | none =>
      projectFormatError ("<" ++ element.tag ++ "> has an unreadable " ++ name ++ ": " ++ raw)

def decodeEvent (element : XmlElement) : Except String Event :=
  if element.tag ≠ eventTag then
    projectFormatError ("unexpected <" ++ element.tag ++ "> in an FL Studio snapshot")
  else do
    let id ← parseAttribute (parseUnsigned 8) element "T"
    let id := id.toUInt8
    match Event.fixedLen id with
    | some width =>
      let value ← parseAttribute (parseUnsigned 32) element "V"
      return ⟨id, (toLeBytes 4 value).take width⟩
    | none =>
      match element.attributeValue "Enc" with
      | some encoding => return ⟨id, encodeText ((element.attributeValue "V").getD "") encoding⟩
      | none =>
        match element.attributeValue "B" with
        | some encoded =>
          match base64Decode encoded with
          | .ok payload => return ⟨id, payload⟩
          | .error e =>
            projectFormatError ("FL Studio event " ++ toString id.toNat ++
              " has invalid payload: " ++ e)
        | none => return ⟨id, []⟩

/-- The events of every group, in order. -/
def groupedElements (root : XmlElement) : List XmlElement :=
  root.childElements.flatMap XmlElement.childElements

def fromDocument (document : XmlDocument) : Except String Stream :=
  if document.root.tag ≠ rootTag then
    projectFormatError ("expected an " ++ rootTag ++ " snapshot, found <" ++ document.root.tag ++ ">")
  else do
    let format ← parseAttribute parseI16 document.root "Format"
    let channels ← parseAttribute (parseUnsigned 16) document.root "Channels"
    let ppq ← parseAttribute (parseUnsigned 16) document.root "Ppq"
    let events ← (groupedElements document.root).mapM (decodeEvent base64Decode)
    return ⟨⟨format, channels.toUInt16, ppq.toUInt16⟩, events⟩

def fromTree (document : XmlDocument) : Except String (List UInt8) := do
  return (← fromDocument base64Decode document).encode

end Tree

/-! Redaction. -/

def redactEvent (terminator : List UInt8) (event : Event) : Event :=
  if event.id = eventRegName ∧ terminator.length < event.payload.length then
    { event with payload := terminator }
  else event

/-- `redact` -/
def Stream.redact (stream : Stream) : Stream :=
  let terminator := if usesUtf16 stream.majorVersion then [0, 0] else [0]
  { stream with events := stream.events.map (redactEvent terminator) }

/-! Snapshots. -/

section Snapshots
variable {Hash : Type} (F : Formats (List UInt8) Hash) (C : Codecs (List UInt8) Hash)
variable (blob : Value → Except String (List UInt8))

def encodeFlstudio (source : List UInt8) : Except String (PortableSnapshot Hash) := do
  let stream ← Stream.decode source
  return ⟨1, .flStudio, toDocument C.base64Encode stream.redact, none, []⟩

/-- `ProjectSnapshot::from_source_bytes` for FL Studio. -/
def fromSourceBytes (source : List UInt8) : Except String (ProjectSnapshot (List UInt8)) := do
  let snapshot ← encodeFlstudio C source
  let bytes ← blob (snapshot.toValue F)
  return ⟨.flStudio, bytes, []⟩

/-- The codecs with `flstudio::from_tree` as it is. -/
def withFromTree : Codecs (List UInt8) Hash :=
  { C with flFromTree := fromTree C.base64Decode }

end Snapshots

end FlStudio

end AuruPm
