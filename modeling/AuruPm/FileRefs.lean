import AuruPm.ConflictPath
import AuruPm.HostPath
import Mathlib.Data.List.Infix

/-!
# The files that a Live Set refers to

`FileRef` elements of a Live Set, as `ableton/refs.rs` reads and classifies them. A reference is
kept with what planning looks at.
-/

namespace AuruPm

set_option autoImplicit false

open SortedAssoc

/-! Navigation. -/

namespace XmlElement

def tag : XmlElement → String
  | .mk tag _ _ _ => tag

def id : XmlElement → Option String
  | .mk _ id _ _ => id

def attributes : XmlElement → List (String × String)
  | .mk _ _ attributes _ => attributes

def children : XmlElement → List XmlContent
  | .mk _ _ _ children => children

end XmlElement

def XmlContent.element? : XmlContent → Option XmlElement
  | .element e => some e
  | _ => none

namespace XmlElement

def attributeValue (element : XmlElement) (key : String) : Option String := get? element.attributes key

def childElements (element : XmlElement) : List XmlElement :=
  element.children.filterMap XmlContent.element?

def child (element : XmlElement) (name : String) : Option XmlElement :=
  element.childElements.find? fun child => child.tag = name

/-- The `Value` attribute of the first child of this name. -/
def childValue (element : XmlElement) (name : String) : Option String :=
  (element.child name).bind fun child => child.attributeValue "Value"

mutual
/-- Depth first, with the element itself. -/
def descendants : XmlElement → List XmlElement
  | .mk tag id attributes children =>
    .mk tag id attributes children :: contentDescendants children
def contentDescendants : List XmlContent → List XmlElement
  | [] => []
  | .element element :: rest => element.descendants ++ contentDescendants rest
  | _ :: rest => contentDescendants rest
end

end XmlElement

/-! UTF-16. -/

/-- `char::decode_utf16`, with `none` for an unpaired surrogate. -/
def decodeUtf16Units : List UInt16 → List (Option Char)
  | [] => []
  | unit :: rest =>
    if unit.toNat < 0xD800 ∨ 0xE000 ≤ unit.toNat then
      some (Char.ofNat unit.toNat) :: decodeUtf16Units rest
    else if 0xDC00 ≤ unit.toNat then none :: decodeUtf16Units rest
    else
      match rest with
      | [] => [none]
      | low :: more =>
        if 0xDC00 ≤ low.toNat ∧ low.toNat < 0xE000 then
          some (Char.ofNat (0x10000 + (unit.toNat - 0xD800) * 0x400 + (low.toNat - 0xDC00))) ::
            decodeUtf16Units more
        else none :: decodeUtf16Units (low :: more)

namespace Ableton

/-- How Live resolves the relative path of a reference. -/
inductive RelativePathType where
  | missing
  | projectRelative
  | projectFolder
  | installation
  | userLibrary
  | other (raw : Nat)
  deriving DecidableEq

def RelativePathType.fromRaw (raw : Nat) : RelativePathType :=
  if raw = 0 then .missing
  else if raw = 1 then .projectRelative
  else if raw = 3 then .projectFolder
  else if raw = 5 then .installation
  else if raw = 6 then .userLibrary
  else .other raw

/-- What to do with a referenced file. -/
inductive RefClass where
  | inFolder
  | external
  | userLibrary
  | library
  | unresolvable
  deriving DecidableEq

structure AssetRef where
  relativePath : String
  absolutePath : String
  relativePathType : RelativePathType
  refClass : RefClass
  deriving DecidableEq

/-- The path of a reference that names the file, whichever is there. -/
def AssetRef.dedupKey (r : AssetRef) : String :=
  if r.relativePath = "" then r.absolutePath else r.relativePath

/-- The last segment with something in it. -/
def AssetRef.fileName (r : AssetRef) : Option String :=
  (segments isAnySlash r.dedupKey).reverse.find? (· ≠ "")

/-! Reading a reference. -/

/-- `str::parse::<u32>` -/
def parseU32 (text : String) : Option Nat := (parseUsize text.toList).filter (· < 2 ^ 32)

/-- Live 9 and 10 write the folders as elements and the name beside them. -/
def readRelativePath (element : XmlElement) : String :=
  match element.child "RelativePath" with
  | none => ""
  | some node =>
    match node.attributeValue "Value" with
    | some value => value
    | none =>
      let folders := (node.descendants.filter fun e => e.tag = "RelativePathElement").filterMap
        fun e => (e.attributeValue "Dir").filter (· ≠ "")
      let name :=
        if element.childValue "RefersToFolder" = some "true" then none
        else (element.childValue "Name").filter (· ≠ "")
      "/".intercalate (folders ++ name.toList)

def hexValue (b : UInt8) : Option Nat :=
  if 48 ≤ b.toNat ∧ b.toNat ≤ 57 then some (b.toNat - 48)
  else if 65 ≤ b.toNat ∧ b.toNat ≤ 70 then some (b.toNat - 55)
  else if 97 ≤ b.toNat ∧ b.toNat ≤ 102 then some (b.toNat - 87)
  else none

/-- `u16::from_str_radix` on four bytes, which may start with a plus sign. -/
def hexU16 (digits : List UInt8) : Option UInt16 :=
  let digits := if digits.head? = some 43 then digits.tail else digits
  (digits.mapM hexValue).map fun values => (values.foldl (fun n d => 16 * n + d) 0).toUInt16

def hexUnits : List UInt8 → Option (List UInt16)
  | a :: b :: c :: d :: rest => do
    let unit ← hexU16 [a, b, c, d]
    let units ← hexUnits rest
    return (unit >>> 8 ||| unit <<< 8) :: units
  | _ => some []

def isAsciiWhitespace (b : UInt8) : Bool :=
  b = 9 || b = 10 || b = 12 || b = 13 || b = 32

def isControl (c : Char) : Bool := c.toNat < 32 || (127 ≤ c.toNat && c.toNat < 160)

/-- The path that Live 9 wrote as hexadecimal UTF-16. -/
def decodeDataPath (data : XmlElement) : Option String := do
  let digits := (data.children.filterMap fun
    | .text text => some (text.toList.flatMap String.utf8EncodeChar)
    | _ => none).flatten.filter fun b => !isAsciiWhitespace b
  if digits = [] ∨ digits.length % 4 ≠ 0 ∨ 8192 < digits.length then none
  else
    let units ← hexUnits digits
    let chars ← (decodeUtf16Units (units.reverse.dropWhile (· = 0)).reverse).mapM id
    if chars.any isAnySlash && chars.all fun c => !isControl c && c ≠ '\uFFFD' then
      some (String.ofList chars)
    else none

def readAbsolutePath (element : XmlElement) : String :=
  match (element.childValue "Path").filter (· ≠ "") with
  | some path => path
  | none => ((element.child "Data").bind decodeDataPath).getD ""

/-! Classes. -/

def contains (needle text : String) : Bool := needle.toList <:+: text.toList

def looksLikeLibraryPath (absolutePath : String) : Bool :=
  contains "Core Library" absolutePath || contains "/Live Packs/" absolutePath

/-- Whether the segments lead above where they start. -/
def escapesFrom (depth : Nat) : List String → Bool
  | [] => false
  | segment :: rest =>
    if segment = "" ∨ segment = "." then escapesFrom depth rest
    else if segment = ".." then
      match depth with
      | 0 => true
      | depth + 1 => escapesFrom depth rest
    else escapesFrom (depth + 1) rest

def escapesProjectFolder (relativePath : String) : Bool :=
  if relativePath = "" then false
  else if relativePath.toList.head? = some '/' || hasWindowsDrive relativePath then true
  else escapesFrom 0 (segments isSlash relativePath)

def classify (relativePathType : RelativePathType) (relativePath absolutePath : String)
    (hasLivePack : Bool) : RefClass :=
  if relativePath = "" ∧ absolutePath = "" then .unresolvable
  else
    match relativePathType with
    | .installation => .library
    | .userLibrary => .userLibrary
    | .projectFolder => .inFolder
    | .projectRelative => if escapesProjectFolder relativePath then .external else .inFolder
    | _ =>
      if hasLivePack || looksLikeLibraryPath absolutePath then .library
      else if relativePath = "" ∨ escapesProjectFolder relativePath = true then .external
      else .inFolder

def readFileRef (element : XmlElement) : AssetRef :=
  let relativePath := readRelativePath element
  let absolutePath := readAbsolutePath element
  let relativePathType := RelativePathType.fromRaw
    (((element.childValue "RelativePathType").bind parseU32).getD 0)
  let hasLivePack := ((element.childValue "LivePackName").filter (· ≠ "")).isSome
  ⟨relativePath, absolutePath, relativePathType,
    classify relativePathType relativePath absolutePath hasLivePack⟩

mutual
/-- Every `FileRef` in document order. None nests another. -/
def collect : XmlElement → List AssetRef
  | .mk tag id attributes children =>
    if tag = "FileRef" then [readFileRef (.mk tag id attributes children)]
    else collectContents children
def collectContents : List XmlContent → List AssetRef
  | [] => []
  | .element element :: rest => collect element ++ collectContents rest
  | _ :: rest => collectContents rest
end

end Ableton

end AuruPm
