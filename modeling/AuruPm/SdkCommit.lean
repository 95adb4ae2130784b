import AuruPm.Formats
import AuruPm.SdkWriter

/-!
# Commits of the client libraries

A commit as `commit.cpp`, `Commit.java` and `Commit.swift` build, write and read it. The libraries
differ in their strings, in the bytes that are hashed, in what an optional string may hold and in
whether a builder can miss a field.
-/

namespace AuruPm

set_option autoImplicit false

open JsonValue CodeUnits

namespace Sdk

variable {T D : Type}

/-! Hashes. -/

structure ContentHash where
  bytes : List UInt8
  length_bytes : bytes.length = 32
  deriving DecidableEq

def byteText (byte : UInt8) : List Char :=
  [Nat.digitChar (byte.toNat / 16), Nat.digitChar (byte.toNat % 16)]

def ContentHash.toText (hash : ContentHash) : List Char :=
  "blake3:".toList ++ hash.bytes.flatMap byteText

/-- The value of a digit; upper case is no digit. -/
def lowercaseHex (u : Nat) : Option Nat :=
  if '0'.toNat ≤ u ∧ u ≤ '9'.toNat then some (u - '0'.toNat)
  else if 'a'.toNat ≤ u ∧ u ≤ 'f'.toNat then some (u - 'a'.toNat + 10)
  else none

def hexBytes : List Nat → Option (List UInt8)
  | [] => some []
  | [_] => none
  | high :: low :: rest => do
    let high ← lowercaseHex high
    let low ← lowercaseHex low
    let bytes ← hexBytes rest
    return .ofNat (16 * high + low) :: bytes

def ContentHash.parse (text : List Nat) : Option ContentHash :=
  if text.length = 7 + 64 ∧ text.take 7 = ascii "blake3:" then
    (hexBytes (text.drop 7)).bind fun bytes =>
      if h : bytes.length = 32 then some ⟨bytes, h⟩ else none
  else none

/-! Commits. -/

structure AuthorIdentity (T : Type) where
  displayName : T
  providerUserId : T
  providerId : T
  email : Option T
  deriving DecidableEq

/-- Everything but the id. -/
structure Content (T : Type) where
  parents : List ContentHash
  tree : TreeRef ContentHash
  author : AuthorIdentity T
  timestamp : Int64
  message : T
  description : T
  auruVersion : T
  formatVersion : Int64
  metadata : Option ContentHash
  deriving DecidableEq

structure Commit (T : Type) extends Content T where
  id : ContentHash
  deriving DecidableEq

/-- How a library writes a text as a string, and the units it reads a string by. -/
structure Strings (T : Type) where
  ofText : List Char → T
  units : T → List Nat

section Encoding
variable (S : Strings T)

def Strings.literal (s : String) : T := S.ofText s.toList

def hashJson (hash : ContentHash) : JsonValue T D := .str (S.ofText hash.toText)

/-- A member that is left out where there is no value. -/
def optionalMember (name : String) (value : Option (JsonValue T D)) : List (T × JsonValue T D) :=
  value.toList.map fun v => (S.literal name, v)

def AuthorIdentity.toJson (author : AuthorIdentity T) : JsonValue T D :=
  .obj <|
    [(S.literal "display_name", .str author.displayName),
      (S.literal "provider_user_id", .str author.providerUserId),
      (S.literal "provider_id", .str author.providerId)] ++
    optionalMember S "email" (author.email.map .str)

def treeJson (tree : TreeRef ContentHash) : JsonValue T D :=
  .obj [(S.literal "snapshot", hashJson S tree.snapshot),
    (S.literal "samples", hashJson S tree.samples)]

def contentMembers (content : Content T) : List (T × JsonValue T D) :=
  [(S.literal "parents", .arr (content.parents.map (hashJson S))),
    (S.literal "tree", treeJson S content.tree),
    (S.literal "author", content.author.toJson S),
    (S.literal "timestamp", .int content.timestamp),
    (S.literal "message", .str content.message),
    (S.literal "description", .str content.description),
    (S.literal "auru_version", .str content.auruVersion),
    (S.literal "format_version", .int content.formatVersion)] ++
  optionalMember S "metadata" (content.metadata.map (hashJson S))

def contentJson (content : Content T) : JsonValue T D := .obj (contentMembers S content)

def Commit.toJson (commit : Commit T) : JsonValue T D :=
  .obj ((S.literal "id", hashJson S commit.id) :: contentMembers S commit.toContent)

end Encoding

section Decoding
variable [DecidableEq T] (S : Strings T)

/-- A null member is read as a missing one. -/
def present : JsonValue T D → Option (JsonValue T D)
  | .null => none
  | v => some v

/-- The first member of the name. -/
def find (v : JsonValue T D) (name : String) : Option (JsonValue T D) :=
  match v with
  | .obj members => (members.find? fun m => m.1 = S.literal name).bind fun m => present m.2
  | _ => none

def asText : JsonValue T D → Option T
  | .str text => some text
  | _ => none

def asInteger : JsonValue T D → Option Int64
  | .int number => some number
  | _ => none

def elements : JsonValue T D → List (JsonValue T D)
  | .arr elements => elements
  | _ => []

def stringAt (v : JsonValue T D) (name : String) : Option T := (find S v name).bind asText

def integerAt (v : JsonValue T D) (name : String) : Option Int64 := (find S v name).bind asInteger

/-- Anything but a string is taken for nothing. -/
def optionalString (v : JsonValue T D) (name : String) : Option (Option T) :=
  some ((find S v name).bind asText)

/-- Anything but a string fails. -/
def optString (v : JsonValue T D) (name : String) : Option (Option T) :=
  match find S v name with
  | none => some none
  | some w => (asText w).map some

def hashAt (v : JsonValue T D) (name : String) : Option ContentHash :=
  (stringAt S v name).bind fun text => ContentHash.parse (S.units text)

def treeFromJson (v : JsonValue T D) : Option (TreeRef ContentHash) := do
  let snapshot ← hashAt S v "snapshot"
  let samples ← hashAt S v "samples"
  return ⟨snapshot, samples⟩

variable (optional : JsonValue T D → String → Option (Option T))

def authorFromJson (v : JsonValue T D) : Option (AuthorIdentity T) := do
  let displayName ← stringAt S v "display_name"
  let providerUserId ← stringAt S v "provider_user_id"
  let providerId ← stringAt S v "provider_id"
  let email ← optional v "email"
  return ⟨displayName, providerUserId, providerId, email⟩

def Commit.fromJson (v : JsonValue T D) : Option (Commit T) := do
  let id ← hashAt S v "id"
  let parentsJson ← find S v "parents"
  let parents ← (elements parentsJson).mapM fun parent =>
    (asText parent).bind fun text => ContentHash.parse (S.units text)
  let tree ← (find S v "tree").bind (treeFromJson S)
  let author ← (find S v "author").bind (authorFromJson S optional)
  let timestamp ← integerAt S v "timestamp"
  let message ← stringAt S v "message"
  let description ← optional v "description"
  let auruVersion ← stringAt S v "auru_version"
  let formatVersion ← integerAt S v "format_version"
  let metadataText ← optional v "metadata"
  let metadata ← metadataText.elim (some none) fun text =>
    (ContentHash.parse (S.units text)).map some
  return ⟨⟨parents, tree, author, timestamp, message, description.getD (S.literal ""), auruVersion,
    formatVersion, metadata⟩, id⟩

end Decoding

/-! Building. -/

/-- A builder, with the fields that it was given. -/
structure Builder (T : Type) where
  parents : List ContentHash
  tree : Option (TreeRef ContentHash)
  author : Option (AuthorIdentity T)
  timestamp : Option Int64
  message : Option T
  description : T
  auruVersion : Option T
  formatVersion : Option Int64
  metadata : Option ContentHash

def Builder.content (b : Builder T) : Option (Content T) := do
  let tree ← b.tree
  let author ← b.author
  let timestamp ← b.timestamp
  let message ← b.message
  let auruVersion ← b.auruVersion
  let formatVersion ← b.formatVersion
  return ⟨b.parents, tree, author, timestamp, message, b.description, auruVersion, formatVersion,
    b.metadata⟩

/-- The id is the hash of the encoding, if the parents are two at most. -/
def derive (encoding : Content T → Option (List Nat)) (hash : List Nat → ContentHash)
    (content : Content T) : Option (Commit T) :=
  if content.parents.length > 2 then none
  else (encoding content).map fun bytes => ⟨content, hash bytes⟩

namespace Cpp

def strings : Strings (List Nat) := ⟨utf8, id⟩

section
variable (formatDouble : D → List Nat)

def canonicalEncoding (content : Content (List Nat)) : Option (List Nat) :=
  toCanonicalJson formatDouble (contentJson strings content)

variable (hash : List Nat → ContentHash)

def build (b : Builder (List Nat)) : Option (Commit (List Nat)) :=
  b.content.bind (derive (canonicalEncoding formatDouble) hash)

def verifyId (commit : Commit (List Nat)) : Bool :=
  (canonicalEncoding formatDouble commit.toContent).any fun bytes => hash bytes = commit.id

end

def commitFromJson (v : JsonValue (List Nat) D) : Option (Commit (List Nat)) :=
  Commit.fromJson strings (optionalString strings) v

end Cpp

namespace Java

def strings : Strings (List Nat) := ⟨utf16, id⟩

section
variable (doubleText : D → List Nat)

def canonicalEncoding (content : Content (List Nat)) : Option (List Nat) :=
  (toCanonicalJson doubleText (contentJson strings content)).map getBytes

variable (hash : List Nat → ContentHash)

def build (b : Builder (List Nat)) : Option (Commit (List Nat)) :=
  b.content.bind (derive (canonicalEncoding doubleText) hash)

/-- Fails where there is no encoding. -/
def verifyId (commit : Commit (List Nat)) : Option Bool :=
  (canonicalEncoding doubleText commit.toContent).map fun bytes => hash bytes = commit.id

end

def commitFromJson (v : JsonValue (List Nat) D) : Option (Commit (List Nat)) :=
  Commit.fromJson strings (optString strings) v

end Java

namespace Swift

def strings : Strings (List Char) := ⟨id, scalars⟩

section
variable (doubleText : D → List Nat)

/-- The UTF-8 bytes of the canonical text. -/
def canonicalEncoding (content : Content (List Char)) : Option (List Nat) :=
  (canonicalJSON doubleText (contentJson strings content)).map fun text => text.flatMap utf8Units

variable (hash : List Nat → ContentHash)

/-- The initializer takes every field. -/
def commit (content : Content (List Char)) : Option (Commit (List Char)) :=
  derive (canonicalEncoding doubleText) hash content

def verifyID (commit : Commit (List Char)) : Bool :=
  (canonicalEncoding doubleText commit.toContent).any fun bytes => hash bytes = commit.id

end

def commitFromJson (v : JsonValue (List Char) D) : Option (Commit (List Char)) :=
  Commit.fromJson strings (optionalString strings) v

end Swift

end Sdk

end AuruPm
