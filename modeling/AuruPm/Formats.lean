import AuruPm.Json
import Mathlib.Algebra.Group.Int.Defs

/-!
# Commits, manifests and their encodings

The records that a project's history is made of, over an arbitrary type of content hashes.
`Formats` is what the coordinator and the store take from elsewhere: the hash function, the
stored-blob frame and the serde encodings. `Formats.Lawful` is what they rely on.
-/

namespace AuruPm

set_option autoImplicit false

/-- What a provider call can fail with. `endless` stands for a loop that would never end. -/
inductive Error where
  | notFound (what : String)
  | io (detail : String)
  | serde (detail : String)
  | other (message : String)
  | endless
  deriving DecidableEq, Repr

def Error.text : Error → String
  | .notFound what => "not found: " ++ what
  | .io detail => "io: " ++ detail
  | .serde detail => "serde: " ++ detail
  | .other message => message
  | .endless => ""

def orFail {α : Type} (fault : Option String) (result : Except Error α) : Except Error α :=
  match fault with
  | some detail => .error (.io detail)
  | none => result

def ofSerde {α : Type} : Except String α → Except Error α
  | .ok a => .ok a
  | .error detail => .error (.serde detail)

structure TreeRef (Hash : Type) where
  snapshot : Hash
  samples : Hash
  deriving DecidableEq

structure AuthorIdentity where
  displayName : String
  providerUserId : String
  providerId : String
  email : Option String
  deriving DecidableEq

/-- A single commit. A `CommitId` is byte-identical to a content hash. -/
structure Commit (Hash : Type) where
  id : Hash
  parents : List Hash
  tree : TreeRef Hash
  author : AuthorIdentity
  timestamp : Int
  message : String
  description : String
  auruVersion : String
  formatVersion : Nat
  metadata : Option Hash
  deriving DecidableEq

structure CommitSummary (Hash : Type) where
  id : Hash
  parents : List Hash
  author : AuthorIdentity
  timestamp : Int
  message : String
  description : String
  deriving DecidableEq

def Commit.summary {Hash : Type} (c : Commit Hash) : CommitSummary Hash :=
  ⟨c.id, c.parents, c.author, c.timestamp, c.message, c.description⟩

/-- Pagination window for `list_history`. -/
structure HistoryRange (Hash : Type) where
  limit : Option Nat
  before : Option Hash

inductive AssetKind where
  | sample
  | analysis
  | preset
  | backup
  | projectInfo
  | other
  deriving DecidableEq, Repr

structure SampleEntry (Hash : Type) where
  path : String
  hash : Hash
  size : Nat
  kind : AssetKind
  origin : Option String
  deriving DecidableEq

structure SampleManifest (Hash : Type) where
  entries : List (SampleEntry Hash)
  deriving DecidableEq

/-- `SampleManifest::insert` on the sorted entries. -/
def insertEntry {Hash : Type} (entry : SampleEntry Hash) :
    List (SampleEntry Hash) → List (SampleEntry Hash)
  | [] => [entry]
  | e :: entries =>
    if entry.path < e.path then entry :: e :: entries
    else if entry.path = e.path then entry :: entries
    else e :: insertEntry entry entries

def SampleManifest.insert {Hash : Type} (m : SampleManifest Hash) (entry : SampleEntry Hash) :
    SampleManifest Hash :=
  ⟨insertEntry entry m.entries⟩

/-- Hash function, stored-blob frame and encodings, over byte strings and hashes. -/
structure Formats (Bytes Hash : Type) where
  /-- `ContentHash::of` -/
  contentHash : Bytes → Hash
  /-- `ContentHash::ZERO` -/
  zero : Hash
  /-- `Display` of a hash. -/
  hashText : Hash → String
  byteLength : Bytes → Nat
  encodeFrame : Bytes → Bytes
  decodeFrame : Bytes → Option Bytes
  /-- `canonical_encoding`: the `id` field is stripped first. -/
  encodeCommit : Commit Hash → Except String Bytes
  /-- Parse of a stored commit; the caller sets its id. -/
  decodeCommit : Bytes → Except String (Commit Hash)
  encodeManifest : SampleManifest Hash → Except String Bytes
  decodeManifest : Bytes → Except String (SampleManifest Hash)
  /-- `serde_json::to_vec` and `from_slice` of a document. -/
  encodeValue : Value → Bytes
  decodeValue : Bytes → Except String Value

/-- JCS keeps integers exactly in this range only. -/
def Commit.InRange {Hash : Type} (c : Commit Hash) : Prop :=
  -(2 ^ 53 - 1) ≤ c.timestamp ∧ c.timestamp ≤ 2 ^ 53 - 1

/-- What the encodings promise. -/
structure Formats.Lawful {Bytes Hash : Type} (F : Formats Bytes Hash) : Prop where
  /-- No two byte strings collide. -/
  hash_injective : Function.Injective F.contentHash
  decode_frame : ∀ b, F.decodeFrame (F.encodeFrame b) = some b
  encode_id : ∀ (c : Commit Hash) (id : Hash), F.encodeCommit { c with id := id } = F.encodeCommit c
  decode_commit : ∀ (c : Commit Hash) (b : Bytes), c.InRange → F.encodeCommit c = .ok b →
    ∃ d, F.decodeCommit b = .ok d ∧ { d with id := c.id } = c
  decode_manifest : ∀ m b, F.encodeManifest m = .ok b → F.decodeManifest b = .ok m

/-- A sequence of fallible calls succeeds when each of them does. -/
theorem bind_ok_iff {ε α β : Type} {x : Except ε α} {f : α → Except ε β} {b : β} :
    (x >>= f) = .ok b ↔ ∃ a, x = .ok a ∧ f a = .ok b := by
  cases x with
  | error e => simp [bind, Except.bind]
  | ok a => simp [bind, Except.bind]

theorem map_ok_iff {ε α β : Type} {x : Except ε α} {f : α → β} {b : β} :
    x.map f = .ok b ↔ ∃ a, x = .ok a ∧ f a = b := by
  cases x with
  | error e => simp [Except.map]
  | ok a => simp [Except.map]

theorem exists_of_isOk {α : Type} {x : Except Error α} (h : x.isOk = true) : ∃ a, x = .ok a := by
  cases x with
  | ok a => exact ⟨a, rfl⟩
  | error e => cases h

theorem orFail_ok_iff {α : Type} {fault : Option String} {result : Except Error α} {a : α} :
    orFail fault result = .ok a ↔ fault = none ∧ result = .ok a := by
  cases fault <;> simp [orFail]

theorem ofSerde_ok_iff {α : Type} {result : Except String α} {a : α} :
    ofSerde result = .ok a ↔ result = .ok a := by
  cases result <;> simp [ofSerde]

end AuruPm
