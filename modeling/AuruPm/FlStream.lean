import AuruPm.ProjectFolder

/-!
# FL Studio event streams

The container of an `.flp`, as `flstudio/events.rs` reads and writes it, and the sample paths
among its events, as `flstudio/refs.rs` classifies them.
-/

namespace AuruPm

set_option autoImplicit false

namespace FlStudio

/-! The container. -/

structure Header where
  format : Int16
  channels : UInt16
  ppq : UInt16
  deriving DecidableEq

structure Event where
  id : UInt8
  payload : List UInt8
  deriving DecidableEq

structure Stream where
  header : Header
  events : List Event
  deriving DecidableEq

def headerMagic : List UInt8 := [0x46, 0x4C, 0x68, 0x64]

def dataMagic : List UInt8 := [0x46, 0x4C, 0x64, 0x74]

def headerLen : Nat := 6

def maxFlpBytes : Nat := 512 * 1024 * 1024

def maxEvents : Nat := 4000000

def eventVersion : UInt8 := 199

def firstVariableEvent : UInt8 := 192

def eventSamplePath : UInt8 := 196

/-- How many bytes of payload an event has, unless it says so itself. -/
def Event.fixedLen (id : UInt8) : Option Nat :=
  if id.toNat < 64 then some 1
  else if id.toNat < 128 then some 2
  else if id.toNat < 192 then some 4
  else none

def Event.isVariable (event : Event) : Bool := firstVariableEvent ≤ event.id

/-- So many bytes and the rest. -/
def take (n : Nat) (source : List UInt8) : Except String (List UInt8 × List UInt8) :=
  if source.length < n then projectFormatError "FL Studio project ends mid-chunk"
  else .ok (source.splitAt n)

def fromLeBytes (bytes : List UInt8) : Nat := bytes.foldr (fun b n => b.toNat + 256 * n) 0

def takeNumber (n : Nat) (what : String) (source : List UInt8) :
    Except String (Nat × List UInt8) :=
  match take n source with
  | .error _ => projectFormatError ("FL Studio project ends before its " ++ what)
  | .ok (bytes, rest) => .ok (fromLeBytes bytes, rest)

/-- Seven bits a byte, the low ones first. -/
def readVarint (value shift : Nat) : List UInt8 → Except String (Nat × List UInt8)
  | [] => projectFormatError "FL Studio event length ran past the end of the file"
  | byte :: rest =>
    if 28 < shift then projectFormatError "FL Studio event length is not a valid varint"
    else
      let value := value ||| ((byte.toNat &&& 0x7f) <<< shift)
      if byte.toNat &&& 0x80 = 0 then .ok (value, rest) else readVarint value (shift + 7) rest

def eventLength (id : UInt8) (body : List UInt8) : Except String (Nat × List UInt8) :=
  match Event.fixedLen id with
  | some length => .ok (length, body)
  | none => readVarint 0 0 body

/-- The event loop, once so many events were read. Every round reads at least one byte. -/
def decodeEvents : Nat → Nat → List UInt8 → Except String (List Event)
  | _, _, [] => .ok []
  | 0, _, _ => .ok []
  | fuel + 1, count, id :: body =>
    if maxEvents ≤ count then
      projectFormatError ("FL Studio project has more than " ++ toString maxEvents ++ " events")
    else do
      let (length, body) ← eventLength id body
      if body.length < length then
        projectFormatError ("FL Studio event " ++ toString id.toNat ++ " claims " ++
          toString length ++ " bytes but only " ++ toString body.length ++ " remain")
      else do
        let events ← decodeEvents fuel (count + 1) (body.drop length)
        return ⟨id, body.take length⟩ :: events

def Stream.decode (source : List UInt8) : Except String Stream :=
  if maxFlpBytes < source.length then
    projectFormatError ("FL Studio project exceeds the " ++
      toString (maxFlpBytes / (1024 * 1024)) ++ " MiB limit")
  else do
    let (magic, source) ← take 4 source
    if magic ≠ headerMagic then
      projectFormatError "not an FL Studio project: missing the FLhd header"
    else do
      let (length, source) ← takeNumber 4 "FLhd length" source
      if length ≠ headerLen then
        projectFormatError ("unsupported FLhd header length " ++ toString length ++
          ", expected " ++ toString headerLen)
      else do
        let (format, source) ← takeNumber 2 "format" source
        let (channels, source) ← takeNumber 2 "channel count" source
        let (ppq, source) ← takeNumber 2 "ppq" source
        let (magic, source) ← take 4 source
        if magic ≠ dataMagic then
          projectFormatError "FL Studio project has no FLdt event chunk"
        else do
          let (length, source) ← takeNumber 4 "FLdt length" source
          let (body, _) ← take length source
          let events ← decodeEvents body.length 0 body
          return ⟨⟨format.toUInt16.toInt16, channels.toUInt16, ppq.toUInt16⟩, events⟩

def toLeBytes : Nat → Nat → List UInt8
  | 0, _ => []
  | n + 1, value => value.toUInt8 :: toLeBytes n (value / 256)

def writeVarint (value : Nat) : List UInt8 :=
  let byte := (value &&& 0x7f).toUInt8
  if value >>> 7 = 0 then [byte] else (byte ||| 0x80) :: writeVarint (value >>> 7)
termination_by value
decreasing_by
  rw [Nat.shiftRight_eq_div_pow] at *
  omega

def Event.encode (event : Event) : List UInt8 :=
  event.id :: (if event.isVariable then writeVarint event.payload.length else []) ++ event.payload

def Stream.encodeBody (stream : Stream) : List UInt8 := stream.events.flatMap Event.encode

def Stream.encode (stream : Stream) : List UInt8 :=
  headerMagic ++ toLeBytes 4 headerLen ++ toLeBytes 2 stream.header.format.toUInt16.toNat ++
    toLeBytes 2 stream.header.channels.toNat ++ toLeBytes 2 stream.header.ppq.toNat ++ dataMagic ++
    toLeBytes 4 stream.encodeBody.length ++ stream.encodeBody

/-! Texts. -/

/-- One byte a character, up to the terminator. -/
def decodeAscii (payload : List UInt8) : String :=
  String.ofList ((payload.takeWhile (· ≠ 0)).map fun b => Char.ofNat b.toNat)

def leUnits : List UInt8 → List UInt16
  | low :: high :: rest => (low.toNat + 256 * high.toNat).toUInt16 :: leUnits rest
  | _ => []

/-- UTF-16 up to the terminator, with unpaired surrogates replaced. -/
def decodeUtf16 (payload : List UInt8) : String :=
  String.ofList ((decodeUtf16Units ((leUnits payload).takeWhile (· ≠ 0))).map fun c =>
    c.getD '\uFFFD')

def Stream.version (stream : Stream) : Option String :=
  (stream.events.find? fun event => event.id = eventVersion).map fun event =>
    decodeAscii event.payload

def Stream.majorVersion (stream : Stream) : Option Nat :=
  stream.version.bind fun version =>
    Ableton.parseU32 ((segments (· = '.') version).headD "")

/-- An unknown version is taken for a recent one. -/
def usesUtf16 : Option Nat → Bool
  | none => true
  | some major => 12 ≤ major

/-! References. -/

inductive RefClass where
  | projectRelative
  | external
  | userData
  | fragile
  | missing
  deriving DecidableEq

def RefClass.shouldVendor : RefClass → Bool
  | .external => true
  | .userData => true
  | .fragile => true
  | _ => false

structure AssetRef where
  recordedPath : String
  expandedPath : String
  refClass : RefClass
  eventIndex : Nat
  deriving DecidableEq

def AssetRef.dedupKey (r : AssetRef) : String := r.expandedPath

/-- What follows the last separator. -/
def AssetRef.fileName (r : AssetRef) : String :=
  (segments isAnySlash r.expandedPath).getLastD r.expandedPath

def flDataVariable : String := "%FLStudioData%"

def userProfileVariable : String := "%USERPROFILE%"

def tempImportMarker : String := "\\Temp\\Image-Line\\"

def stripPrefix (start text : String) : Option String :=
  if start.toList.isPrefixOf text.toList then some (String.ofList (text.toList.drop start.length))
  else none

/-- `Path::join`, printed. -/
def joinText (folder name : String) : String :=
  if folder = "" ∨ folder.toList.getLast? = some '/' then folder ++ name else folder ++ "/" ++ name

/-- The variables of FL Studio, where the home directory is known. -/
def expandVariables (home : Option String) (path : String) : String :=
  let profile := home.bind fun home => (stripPrefix userProfileVariable path).map (home ++ ·)
  let data := home.bind fun home => (stripPrefix flDataVariable path).map
    (joinText home "Documents/Image-Line/FL Studio" ++ ·)
  data.getD (profile.getD path)

/-- White space by the Unicode property. -/
def isWhitespace (c : Char) : Bool :=
  c.toNat ∈ [0x20, 0x85, 0xA0, 0x1680, 0x2028, 0x2029, 0x202F, 0x205F, 0x3000] ||
    (0x9 ≤ c.toNat && c.toNat ≤ 0xD) || (0x2000 ≤ c.toNat && c.toNat ≤ 0x200A)

/-- Whether a path is absolute in the spelling that FL Studio uses. -/
def isAbsolute (path : String) : Bool :=
  match path.toList with
  | '/' :: _ => true
  | '\\' :: '\\' :: _ => true
  | _ => hasWindowsDrive path

def classify (recorded expanded : String) : RefClass :=
  if recorded.toList.all isWhitespace then .missing
  else if Ableton.contains tempImportMarker expanded then .fragile
  else if Ableton.startsWith flDataVariable recorded then .userData
  else if isAbsolute expanded then .external
  else .projectRelative

def collectFrom (utf16 : Bool) (home : Option String) : Nat → List Event → List AssetRef
  | _, [] => []
  | index, event :: rest =>
    if event.id = eventSamplePath then
      let recorded := if utf16 then decodeUtf16 event.payload else decodeAscii event.payload
      let expanded := expandVariables home recorded
      ⟨recorded, expanded, classify recorded expanded, index⟩ ::
        collectFrom utf16 home (index + 1) rest
    else collectFrom utf16 home (index + 1) rest

/-- Every sample path, in the order of the events. -/
def collect (home : Option String) (stream : Stream) : List AssetRef :=
  collectFrom (usesUtf16 stream.majorVersion) home 0 stream.events

/-- The first reference to each file. -/
def distinct (seen : List String) : List AssetRef → List AssetRef
  | [] => []
  | r :: rest =>
    if r.dedupKey ∈ seen then distinct seen rest else r :: distinct (r.dedupKey :: seen) rest

def normalizeSeparators (path : String) : List Char :=
  path.toList.map fun c => if c = '\\' then '/' else c

/-- Where a file is on this machine, by the first alias that fits. -/
def AssetRef.localPath (r : AssetRef) (aliases : List Ableton.PathAlias) : Option HostPath :=
  let candidate := normalizeSeparators r.expandedPath
  let fitting := aliases.find? fun a => (normalizeSeparators a.fromPrefix).isPrefixOf candidate
  match fitting with
  | some a =>
    let rest := candidate.drop (normalizeSeparators a.fromPrefix).length
    some (a.toFolder.join (.ofText (String.ofList (rest.dropWhile (· = '/')))))
  | none => if Ableton.startsWith "/" r.expandedPath then some (.ofText r.expandedPath) else none

end FlStudio

end AuruPm
