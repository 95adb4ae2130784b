import AuruPm.Lib.Binary64
import AuruPm.Objects
import AuruPm.PortableSnapshot

/-!
# The text of a commit

A commit is stored as canonical JSON without its id. Canonical JSON prints a number as
binary64, so a commit is read back as it was written exactly when its timestamp survives that.
-/

namespace AuruPm

set_option autoImplicit false

open SortedAssoc

/-! Numbers, printed and parsed. -/

/-- `Value::from` of an integer. -/
def Number.ofInt : Int → Number
  | .ofNat n => .posInt (.ofNat n)
  | .negSucc n => .negInt (.ofInt (.negSucc n))

/-- An integer that is too large for a machine word is parsed as a float. -/
def Number.rounded : Number → Number
  | .posInt n =>
    let printed := Binary64.printNat n.toNat
    if printed < 2 ^ 64 then .posInt (.ofNat printed) else .float printed
  | .negInt n =>
    let printed := Binary64.print n.toInt
    if -2 ^ 63 ≤ printed then .negInt (.ofInt printed) else .float printed
  | .float q => .float q

namespace Value

mutual
/-- The document that canonical JSON stands for; floats are left alone. -/
def rounded : Value → Value
  | .number n => .number n.rounded
  | .array elems => .array (roundedElems elems)
  | .object fields => .object (roundedFields fields)
  | v => v
def roundedElems : List Value → List Value
  | [] => []
  | v :: vs => v.rounded :: roundedElems vs
def roundedFields : List (String × Value) → List (String × Value)
  | [] => []
  | (k, v) :: fs => (k, v.rounded) :: roundedFields fs
end

/-- `Map::remove` on an object. -/
def remove (key : String) : Value → Value
  | .object fields => .object (erase key fields)
  | v => v

/-- `Map::insert` on an object. -/
def set (v : Value) (key : String) (value : Value) : Value :=
  match v with
  | .object fields => .object (SortedAssoc.insert key value fields)
  | v => v

end Value

/-- `to_value` of a struct, whose fields go into the map one after another. -/
def structValue (fields : List (String × Value)) : Value :=
  .object (fields.foldl (fun m f => SortedAssoc.insert f.1 f.2 m) [])

def skipNone {A : Type} (name : String) (write : A → Value) (field : Option A) :
    List (String × Value) :=
  field.toList.map fun a => (name, write a)

def readI64 : Value → Option Int
  | .number (.posInt n) => if n.toNat < 2 ^ 63 then some n.toNat else none
  | .number (.negInt n) => some n.toInt
  | _ => none

section Encoding
variable {Bytes Hash : Type} (F : Formats Bytes Hash)

def hashValue (hash : Hash) : Value := .string (F.hashText hash)

def treeValue (tree : TreeRef Hash) : Value :=
  structValue [("snapshot", hashValue F tree.snapshot), ("samples", hashValue F tree.samples)]

def authorValue (author : AuthorIdentity) : Value :=
  structValue <|
    [("display_name", .string author.displayName),
      ("provider_user_id", .string author.providerUserId),
      ("provider_id", .string author.providerId)] ++
    skipNone "email" .string author.email

def commitValue (commit : Commit Hash) : Value :=
  structValue <|
    [("id", hashValue F commit.id),
      ("parents", .array (commit.parents.map (hashValue F))),
      ("tree", treeValue F commit.tree),
      ("author", authorValue commit.author),
      ("timestamp", .number (.ofInt commit.timestamp)),
      ("message", .string commit.message),
      ("description", .string commit.description),
      ("auru_version", .string commit.auruVersion),
      ("format_version", .number (.ofInt commit.formatVersion))] ++
    skipNone "metadata" (hashValue F) commit.metadata

/-- What is hashed and stored: the commit without its id. -/
def canonicalValue (commit : Commit Hash) : Value := (commitValue F commit).remove "id"

end Encoding

section Decoding
variable {Hash : Type} (parseHash : String → Option Hash)

def readHashText (v : Value) : Option Hash := v.asStr.bind parseHash

def readTree (v : Value) : Option (TreeRef Hash) :=
  if isStruct 2 v then do
    let snapshot ← (structField v 0 "snapshot").bind (readHashText parseHash)
    let samples ← (structField v 1 "samples").bind (readHashText parseHash)
    return ⟨snapshot, samples⟩
  else none

def readAuthor (v : Value) : Option AuthorIdentity :=
  if isStruct 4 v then do
    let displayName ← (structField v 0 "display_name").bind Value.asStr
    let providerUserId ← (structField v 1 "provider_user_id").bind Value.asStr
    let providerId ← (structField v 2 "provider_id").bind Value.asStr
    let email ← readDefault none (readOption Value.asStr) (structField v 3 "email")
    return ⟨displayName, providerUserId, providerId, email⟩
  else none

/-- `from_value` of a commit. -/
def readCommitValue (v : Value) : Option (Commit Hash) :=
  if isStruct 10 v then do
    let id ← (structField v 0 "id").bind (readHashText parseHash)
    let parents ← (structField v 1 "parents").bind (readList (readHashText parseHash))
    let tree ← (structField v 2 "tree").bind (readTree parseHash)
    let author ← (structField v 3 "author").bind readAuthor
    let timestamp ← (structField v 4 "timestamp").bind readI64
    let message ← (structField v 5 "message").bind Value.asStr
    let description ← readDefault "" Value.asStr (structField v 6 "description")
    let auruVersion ← (structField v 7 "auru_version").bind Value.asStr
    let formatVersion ← (structField v 8 "format_version").bind readU32
    let metadata ← readDefault none (readOption (readHashText parseHash)) (structField v 9 "metadata")
    return ⟨id, parents, tree, author, timestamp, message, description, auruVersion, formatVersion,
      metadata⟩
  else none

end Decoding

section Codec
variable {Bytes Hash : Type} (F : Formats Bytes Hash) (jcs : Value → Except String Bytes)
  (parseHash : String → Option Hash)

/-- The formats with the encoding of commits spelled out, over `serde_jcs::to_vec` and the parser
of hashes. The reader of a commit puts its own id in place of the one here. -/
def Formats.withCommits : Formats Bytes Hash :=
  { F with
    encodeCommit := fun commit => jcs (canonicalValue F commit)
    decodeCommit := fun bytes => do
      let v ← F.decodeValue bytes
      serdeResult (readCommitValue parseHash (v.set "id" (hashValue F F.zero))) }

/-- What the encoding of commits rests on. -/
structure CanonicalJson : Prop where
  hash_injective : Function.Injective F.contentHash
  parse_hash : ∀ hash, parseHash (F.hashText hash) = some hash
  /-- Canonical JSON is parsed as the document it was written from, but for rounded numbers. -/
  written : ∀ (commit : Commit Hash) (bytes : Bytes), jcs (canonicalValue F commit) = .ok bytes →
    F.decodeValue bytes = .ok (canonicalValue F commit).rounded

end Codec

/-- The ranges of `i64` and `u32`. -/
structure Commit.Typed {Hash : Type} (commit : Commit Hash) : Prop where
  timestamp : -2 ^ 63 ≤ commit.timestamp ∧ commit.timestamp < 2 ^ 63
  formatVersion : commit.formatVersion < 2 ^ 32

/-- The timestamp is printed as it is. -/
def Commit.Exact {Hash : Type} (commit : Commit Hash) : Prop :=
  Binary64.print commit.timestamp = commit.timestamp

namespace Value

@[simp] theorem rounded_string (s : String) : (string s).rounded = string s := rfl

@[simp] theorem rounded_number (n : Number) : (number n).rounded = number n.rounded := rfl

theorem roundedElems_eq (elems : List Value) : roundedElems elems = elems.map rounded := by
  induction elems with
  | nil => rfl
  | cons v vs ih => rw [roundedElems, ih, List.map_cons]

theorem get?_roundedFields (fields : List (String × Value)) (key : String) :
    get? (roundedFields fields) key = (get? fields key).map rounded := by
  induction fields with
  | nil => rfl
  | cons f fs ih =>
    obtain ⟨k, v⟩ := f
    simp only [roundedFields, get?_cons, ih]
    split <;> rfl

theorem roundedFields_insert (key : String) (v : Value) (fields : List (String × Value)) :
    roundedFields (SortedAssoc.insert key v fields) =
      SortedAssoc.insert key v.rounded (roundedFields fields) := by
  induction fields with
  | nil => rfl
  | cons f fs ih =>
    obtain ⟨k, w⟩ := f
    simp only [SortedAssoc.insert, roundedFields]
    split
    · rfl
    · split
      · rfl
      · rw [roundedFields, ih]

theorem roundedFields_erase (key : String) (fields : List (String × Value)) :
    roundedFields (erase key fields) = erase key (roundedFields fields) := by
  induction fields with
  | nil => rfl
  | cons f fs ih =>
    obtain ⟨k, w⟩ := f
    by_cases hk : k = key
    · simpa [erase, roundedFields, hk] using ih
    · simpa [erase, roundedFields, hk] using ih

theorem rounded_remove (key : String) (v : Value) : (v.remove key).rounded = v.rounded.remove key := by
  cases v with
  | object fields => exact congrArg object (roundedFields_erase key fields)
  | _ => rfl

/-- The fields of a struct that was stored without one of them. -/
theorem structField_restored (fields : List (String × Value)) (key name : String) (v : Value)
    (i : Nat) : structField ((((object fields).remove key).rounded).set key v) i name =
      if name = key then some v else (get? fields name).map rounded := by
  change get? (SortedAssoc.insert key v (roundedFields (erase key fields))) name = _
  rw [get?_insert, get?_roundedFields, get?_erase]
  split <;> rfl

theorem structField_set (fields : List (String × Value)) (key name : String) (v : Value) (i : Nat) :
    structField ((object fields).set key v) i name =
      if name = key then some v else structField (object fields) i name :=
  get?_insert key v fields name

end Value

theorem structField_structValue (fields : List (String × Value)) (i : Nat) (name : String) :
    structField (structValue fields) i name =
      get? (fields.foldl (fun m f => SortedAssoc.insert f.1 f.2 m) []) name := rfl

theorem rounded_structValue (fields : List (String × Value)) :
    (structValue fields).rounded = structValue (Value.roundedFields fields) := by
  have hfold : ∀ m : List (String × Value),
      Value.roundedFields (fields.foldl (fun m f => SortedAssoc.insert f.1 f.2 m) m) =
        (Value.roundedFields fields).foldl (fun m f => SortedAssoc.insert f.1 f.2 m)
          (Value.roundedFields m) := by
    induction fields with
    | nil => exact fun _ => rfl
    | cons f fs ih =>
      intro m
      rw [List.foldl_cons, ih, Value.roundedFields_insert]
      rfl
  exact congrArg Value.object (hfold [])

/-! Reading what was printed. -/

theorem toNat_ofNat_of_lt {n : Nat} (h : n < 2 ^ 64) : (UInt64.ofNat n).toNat = n := by
  rw [UInt64.toNat_ofNat', Nat.mod_eq_of_lt h]

theorem ofInt_toInt {i : Int} (hlow : -2 ^ 63 ≤ i) (hhigh : i < 2 ^ 63) :
    (Int64.ofInt i).toInt = i :=
  Int64.toInt_ofInt_of_le hlow hhigh

/-- A printed timestamp is read as what was printed, when a machine word holds it. -/
theorem readI64_rounded {i : Int} (hlow : -2 ^ 63 ≤ i) (hhigh : i < 2 ^ 63) :
    readI64 (.number (Number.ofInt i).rounded) =
      if -2 ^ 63 ≤ Binary64.print i ∧ Binary64.print i < 2 ^ 63 then some (Binary64.print i)
      else none := by
  cases i with
  | ofNat n =>
    have hn : n < 2 ^ 63 := Int.ofNat_lt.mp hhigh
    have hword : (UInt64.ofNat n).toNat = n := toNat_ofNat_of_lt (by omega)
    rw [Number.ofInt, Number.rounded, hword, Binary64.print_ofNat]
    by_cases hprinted : Binary64.printNat n < 2 ^ 64
    · rw [if_pos hprinted, readI64, toNat_ofNat_of_lt hprinted]
      by_cases hread : Binary64.printNat n < 2 ^ 63
      · rw [if_pos hread, if_pos (by omega)]
      · rw [if_neg hread, if_neg (by omega)]
    · rw [if_neg hprinted, if_neg (by omega)]
      rfl
  | negSucc n =>
    have hnegative : Binary64.print (.negSucc n) ≤ 0 := by
      simp only [Binary64.print]
      omega
    simp only [Number.ofInt, Number.rounded, ofInt_toInt hlow hhigh]
    by_cases hprinted : -2 ^ 63 ≤ Binary64.print (.negSucc n)
    · rw [if_pos hprinted, if_pos ⟨hprinted, by omega⟩, readI64, ofInt_toInt hprinted (by omega)]
    · rw [if_neg hprinted, if_neg fun h => hprinted h.1]
      rfl

theorem readI64_rounded_iff {i : Int} (hlow : -2 ^ 63 ≤ i) (hhigh : i < 2 ^ 63) :
    readI64 (.number (Number.ofInt i).rounded) = some i ↔ Binary64.print i = i := by
  rw [readI64_rounded hlow hhigh]
  constructor
  · intro h
    split at h
    · exact Option.some.inj h
    · cases h
  · intro h
    rw [h, if_pos ⟨hlow, hhigh⟩]

theorem readU32_rounded {n : Nat} (h : n < 2 ^ 32) :
    readU32 (.number (Number.ofInt n).rounded) = some n := by
  have hword : (UInt64.ofNat n).toNat = n := toNat_ofNat_of_lt (by omega)
  have hrounded : (Number.ofInt n).rounded = .posInt (.ofNat n) := by
    simp only [Number.ofInt, Number.rounded, hword, Binary64.printNat_of_lt (show n < 2 ^ 53 by omega)]
    rw [if_pos (by omega)]
  rw [hrounded, readU32, Value.asU64, Option.bind_some, hword, if_pos h]

variable {Bytes Hash : Type} {F : Formats Bytes Hash} {jcs : Value → Except String Bytes}
  {parseHash : String → Option Hash}

theorem readHashText_hashValue (h : ∀ hash, parseHash (F.hashText hash) = some hash) (hash : Hash) :
    readHashText parseHash (hashValue F hash).rounded = some hash := h hash

theorem readTree_treeValue (h : ∀ hash, parseHash (F.hashText hash) = some hash)
    (tree : TreeRef Hash) : readTree parseHash (treeValue F tree).rounded = some tree := by
  simp [readTree, treeValue, structValue, Value.rounded, isStruct, structField,
    Value.get?_roundedFields, get?_insert, readHashText_hashValue h]

theorem readAuthor_authorValue (author : AuthorIdentity) :
    readAuthor (authorValue author).rounded = some author := by
  obtain ⟨displayName, providerUserId, providerId, email⟩ := author
  cases email with
  | none =>
    simp [readAuthor, authorValue, structValue, skipNone, Value.rounded, isStruct, structField,
      Value.get?_roundedFields, get?_insert, readDefault, Value.asStr]
  | some email =>
    simp [readAuthor, authorValue, structValue, skipNone, Value.rounded, isStruct, structField,
      Value.get?_roundedFields, get?_insert, readDefault, readOption, Value.asStr]

theorem readParents (h : ∀ hash, parseHash (F.hashText hash) = some hash) (parents : List Hash) :
    readList (readHashText parseHash) (Value.array (parents.map (hashValue F))).rounded =
      some parents := by
  simp only [Value.rounded, Value.roundedElems_eq, readList, List.map_map]
  induction parents with
  | nil => rfl
  | cons hash parents ih =>
    simp [readHashText_hashValue h, ih]


/-- A value with the fields of a commit, but for its id and its timestamp. -/
theorem readCommitValue_of (h : ∀ hash, parseHash (F.hashText hash) = some hash) {id : Hash}
    {commit : Commit Hash} (ht : commit.Typed) {v timestamp : Value} (hstruct : isStruct 10 v = true)
    (hid : ∀ i, structField v i "id" = some (hashValue F id))
    (htime : ∀ i, structField v i "timestamp" = some timestamp)
    (hfields : ∀ i name, name ≠ "id" → name ≠ "timestamp" →
      structField v i name = (structField (commitValue F commit) i name).map Value.rounded) :
    readCommitValue parseHash v =
      (readI64 timestamp).map fun timestamp => { commit with id := id, timestamp := timestamp } := by
  have hread : readHashText parseHash (hashValue F id) = some id := h id
  have hparents := readParents h commit.parents
  have htree := readTree_treeValue h commit.tree
  have hauthor := readAuthor_authorValue commit.author
  have hformat := readU32_rounded ht.formatVersion
  have hmetadata : ∀ hash, readOption (readHashText parseHash) (hashValue F hash).rounded =
      some (some hash) := fun hash => congrArg (Option.map some) (h hash)
  obtain ⟨cid, parents, tree, author, time, message, description, auruVersion, formatVersion,
    metadata⟩ := commit
  simp only at hparents htree hauthor hformat
  cases metadata with
  | none =>
    simp [readCommitValue, hstruct, hid, htime, hfields, commitValue,
      structField_structValue, skipNone, get?_insert, readDefault, Value.asStr, hread, hparents,
      htree, hauthor, hformat, Option.map_eq_bind]
  | some metadata =>
    simp [readCommitValue, hstruct, hid, htime, hfields, commitValue,
      structField_structValue, skipNone, get?_insert, readDefault, Value.asStr, hread, hparents,
      htree, hauthor, hformat, hmetadata, Option.map_eq_bind]

theorem structField_canonical (commit : Commit Hash) (id : Value) (i : Nat) (name : String) :
    structField ((canonicalValue F commit).rounded.set "id" id) i name =
      if name = "id" then some id
      else (structField (commitValue F commit) i name).map Value.rounded :=
  Value.structField_restored _ _ _ _ _

theorem timestamp_commitValue (commit : Commit Hash) (i : Nat) :
    structField (commitValue F commit) i "timestamp" =
      some (.number (Number.ofInt commit.timestamp)) := by
  cases hm : commit.metadata with
  | none => simp [commitValue, structField_structValue, skipNone, get?_insert, hm]
  | some metadata => simp [commitValue, structField_structValue, skipNone, get?_insert, hm]

/-- What is read back from the text of a commit. -/
theorem readCommitValue_canonical (h : ∀ hash, parseHash (F.hashText hash) = some hash) (id : Hash)
    {commit : Commit Hash} (ht : commit.Typed) :
    readCommitValue parseHash ((canonicalValue F commit).rounded.set "id" (hashValue F id)) =
      (readI64 (.number (Number.ofInt commit.timestamp).rounded)).map fun timestamp =>
        { commit with id := id, timestamp := timestamp } := by
  apply readCommitValue_of h ht rfl
  · intro i
    rw [structField_canonical, if_pos rfl]
  · intro i
    rw [structField_canonical, if_neg (by decide), timestamp_commitValue]
    rfl
  · intro i name hid _
    rw [structField_canonical, if_neg hid]

/-- Commits with one text differ in their ids and their timestamps alone. -/
theorem eq_of_rounded_eq (h : ∀ hash, parseHash (F.hashText hash) = some hash)
    {commit other : Commit Hash} (ht : commit.Typed) (ho : other.Typed)
    (heq : (canonicalValue F commit).rounded = (canonicalValue F other).rounded) :
    { commit with id := other.id, timestamp := other.timestamp } = other := by
  have hread : ∀ {c : Commit Hash}, c.Typed →
      readCommitValue parseHash
          (((canonicalValue F c).rounded.set "id" (hashValue F other.id)).set "timestamp"
            (.number (.ofInt 0))) =
        some { c with id := other.id, timestamp := 0 } := by
    intro c hc
    have hset : ∀ i name, structField
        (((canonicalValue F c).rounded.set "id" (hashValue F other.id)).set "timestamp"
          (.number (.ofInt 0))) i name =
        if name = "timestamp" then some (.number (.ofInt 0))
        else structField ((canonicalValue F c).rounded.set "id" (hashValue F other.id)) i name :=
      fun i name => Value.structField_set _ _ _ _ _
    have hzero : some { c with id := other.id, timestamp := 0 } =
        (readI64 (.number (.ofInt 0))).map fun timestamp =>
          { c with id := other.id, timestamp := timestamp } := rfl
    rw [hzero]
    apply readCommitValue_of h hc rfl
    · intro i
      rw [hset, if_neg (by decide), structField_canonical, if_pos rfl]
    · intro i
      rw [hset, if_pos rfl]
    · intro i name hid htime
      rw [hset, if_neg htime, structField_canonical, if_neg hid]
  have hboth := hread ho
  rw [← heq, hread ht, Option.some.injEq] at hboth
  exact congrArg (fun c : Commit Hash => { c with timestamp := other.timestamp }) hboth

namespace CanonicalJson

variable (hC : CanonicalJson F jcs parseHash) {commit other : Commit Hash} {bytes : Bytes}

include hC

/-- An id has one commit, but for what its timestamp loses. -/
theorem eq_of_computeCommitId_eq (ht : commit.Typed) (ho : other.Typed) {id : Hash}
    (h : FilesystemProvider.computeCommitId (F.withCommits jcs parseHash) commit = .ok id)
    (h' : FilesystemProvider.computeCommitId (F.withCommits jcs parseHash) other = .ok id) :
    { commit with id := other.id, timestamp := other.timestamp } = other := by
  obtain ⟨text, htext, hhash⟩ := map_ok_iff.mp h
  obtain ⟨text', htext', hhash'⟩ := map_ok_iff.mp h'
  obtain rfl : text = text' := hC.hash_injective (hhash.trans hhash'.symm)
  have hsame := hC.written commit text htext
  rw [hC.written other text htext', Except.ok.injEq] at hsame
  exact eq_of_rounded_eq hC.parse_hash ht ho hsame.symm

theorem decodeCommit (ht : commit.Typed)
    (he : (F.withCommits jcs parseHash).encodeCommit commit = .ok bytes) :
    (F.withCommits jcs parseHash).decodeCommit bytes =
      serdeResult ((readI64 (.number (Number.ofInt commit.timestamp).rounded)).map fun timestamp =>
        { commit with id := F.zero, timestamp := timestamp }) := by
  rw [← readCommitValue_canonical hC.parse_hash F.zero ht]
  change (F.decodeValue bytes >>= fun v => serdeResult _) = _
  rw [hC.written commit bytes he]
  rfl

/-- The timestamp decides whether a commit is decoded as it was. -/
theorem decode_iff (ht : commit.Typed)
    (he : (F.withCommits jcs parseHash).encodeCommit commit = .ok bytes) :
    (∃ d, (F.withCommits jcs parseHash).decodeCommit bytes = .ok d ∧
      commit = { d with id := commit.id }) ↔ commit.Exact := by
  have hread := readI64_rounded_iff ht.timestamp.1 ht.timestamp.2
  rw [hC.decodeCommit ht he, Commit.Exact, ← hread]
  cases h : readI64 (.number (Number.ofInt commit.timestamp).rounded) with
  | none => simp [serdeResult]
  | some timestamp =>
    constructor
    · rintro ⟨d, hd, hcommit⟩
      cases hd
      rw [hcommit]
    · intro htime
      cases htime
      exact ⟨_, rfl, rfl⟩

/-- The promise of `Formats.Lawful`, for commits that the program can hold. -/
theorem decode_commit (ht : commit.Typed) (hr : commit.InRange)
    (he : (F.withCommits jcs parseHash).encodeCommit commit = .ok bytes) :
    ∃ d, (F.withCommits jcs parseHash).decodeCommit bytes = .ok d ∧
      { d with id := commit.id } = commit := by
  obtain ⟨d, hd, hcommit⟩ := (hC.decode_iff ht he).mpr <| Binary64.print_of_safe <| by
    obtain ⟨hlow, hhigh⟩ := hr
    omega
  exact ⟨d, hd, hcommit.symm⟩

end CanonicalJson

/-- What is printed shows only what is left of the timestamp. -/
theorem rounded_of_timestamp (commit : Commit Hash) {timestamp : Int}
    (h : (Number.ofInt timestamp).rounded = (Number.ofInt commit.timestamp).rounded) :
    (canonicalValue F { commit with timestamp := timestamp }).rounded =
      (canonicalValue F commit).rounded := by
  simp only [canonicalValue, commitValue, Value.rounded_remove, rounded_structValue,
    Value.roundedFields, List.cons_append, List.nil_append, Value.rounded_number, h]

theorem withCommits_encodeCommit (commit : Commit Hash) :
    (F.withCommits jcs parseHash).encodeCommit commit = jcs (canonicalValue F commit) := rfl

/-! Storage. -/

/-- A file that is there already holds what its name says. -/
def Cas.Undamaged [DecidableEq Hash] (F : Formats Bytes Hash) (cas : Cas Bytes Hash) (hash : Hash) :
    Prop :=
  ∀ file, get? cas hash = some file → ∃ bytes, plain F hash file = some bytes

section Storage
variable [DecidableEq Hash]

theorem Cas.get_put_iff (hinjective : Function.Injective F.contentHash)
    (hframe : ∀ b, F.decodeFrame (F.encodeFrame b) = some b) {cas cas' : Cas Bytes Hash} {now : Nat}
    {hash : Hash} {bytes content : Bytes} (h : cas.put F now hash bytes = .ok cas') :
    cas'.get F {} hash = .ok content ↔ cas.Undamaged F hash ∧ content = bytes := by
  obtain ⟨hhash, hput⟩ := put_cases h
  have hplain : ∀ file b, plain F hash file = some b → b = bytes := by
    intro file b hb
    exact hinjective ((plain_hash hb).trans hhash.symm)
  rw [get_ok_iff]
  rcases hput with ⟨hcas, file, hfile⟩ | ⟨hcas, hnone⟩
  · rw [hcas]
    constructor
    · rintro ⟨file', hfile', -, hb⟩
      refine ⟨?_, hplain file' content hb⟩
      intro file'' hfile''
      rw [hfile', Option.some.injEq] at hfile''
      exact ⟨content, hfile'' ▸ hb⟩
    · rintro ⟨hundamaged, hcontent⟩
      obtain ⟨b, hb⟩ := hundamaged file hfile
      exact ⟨file, hfile, rfl, by rw [hb, hplain file b hb, hcontent]⟩
  · have hnew : plain F hash ⟨F.encodeFrame bytes, now⟩ = some bytes := by
      simp [plain, hframe, hhash]
    rw [hcas]
    constructor
    · rintro ⟨file, hfile, -, hb⟩
      refine ⟨?_, hplain file content hb⟩
      intro file' hfile'
      rw [hnone] at hfile'
      cases hfile'
    · rintro ⟨-, hcontent⟩
      exact ⟨_, get?_cons_self _ _ _, rfl, by rw [hcontent, hnew]⟩

/-- A commit under its own id is accepted. -/
theorem FilesystemProvider.putCommit_accepts {p : FilesystemProvider Bytes Hash} {now : Nat}
    {commit : Commit Hash} {bytes : Bytes} (he : F.encodeCommit commit = .ok bytes)
    (hid : F.contentHash bytes = commit.id) : ∃ p', p.putCommit F now commit = .ok p' := by
  have hput : ∃ commits, p.commits.put F now commit.id bytes = .ok commits := by
    unfold Cas.put
    simp only [hid, not_true_eq_false, ne_eq, if_false]
    split
    · exact ⟨_, rfl⟩
    · exact ⟨_, rfl⟩
  obtain ⟨commits, hput⟩ := hput
  refine ⟨{ p with commits := commits }, ?_⟩
  simp [putCommit, computeCommitId, he, Except.map, hid, hput, ofSerde, bind, Except.bind, pure,
    Except.pure]

namespace CanonicalJson

variable (hC : CanonicalJson F jcs parseHash) {p p' q q' : FilesystemProvider Bytes Hash}
  {now later : Nat} {commit other : Commit Hash}

include hC

theorem getCommit_iff (hframe : ∀ b, F.decodeFrame (F.encodeFrame b) = some b) (ht : commit.Typed)
    (h : p.putCommit (F.withCommits jcs parseHash) now commit = .ok p') :
    p'.getCommit (F.withCommits jcs parseHash) {} commit.id = .ok commit ↔
      p.commits.Undamaged F commit.id ∧ commit.Exact := by
  obtain ⟨-, bytes, commits, he, hput, rfl⟩ := FilesystemProvider.putCommit_ok h
  have hget : ∀ content, commits.get (F.withCommits jcs parseHash) {} commit.id = .ok content ↔
      p.commits.Undamaged F commit.id ∧ content = bytes := by
    intro content
    exact Cas.get_put_iff hC.hash_injective hframe hput
  rw [← hC.decode_iff ht he, FilesystemProvider.getCommit, FilesystemProvider.readCommit_ok_iff]
  constructor
  · rintro ⟨content, d, hcontent, hd, hcommit⟩
    obtain ⟨hundamaged, rfl⟩ := (hget content).mp hcontent
    exact ⟨hundamaged, d, hd, hcommit⟩
  · rintro ⟨hundamaged, d, hd, hcommit⟩
    exact ⟨bytes, d, (hget bytes).mpr ⟨hundamaged, rfl⟩, hd, hcommit⟩

/-- Commits with one id differ in what their timestamps lose. -/
theorem eq_of_id_eq (ht : commit.Typed) (ho : other.Typed)
    (h : p.putCommit (F.withCommits jcs parseHash) now commit = .ok p')
    (h' : q.putCommit (F.withCommits jcs parseHash) later other = .ok q')
    (hexact : commit.Exact) (hexact' : other.Exact) (hid : commit.id = other.id) :
    commit = other := by
  obtain ⟨-, bytes, _, he, hput, -⟩ := FilesystemProvider.putCommit_ok h
  obtain ⟨-, bytes', _, he', hput', -⟩ := FilesystemProvider.putCommit_ok h'
  have hhash : F.contentHash bytes = commit.id := (Cas.put_cases hput).1
  have hhash' : F.contentHash bytes' = other.id := (Cas.put_cases hput').1
  obtain rfl : bytes = bytes' := hC.hash_injective (hhash.trans (hid.trans hhash'.symm))
  obtain ⟨d, hd, hcommit⟩ := (hC.decode_iff ht he).mpr hexact
  obtain ⟨d', hd', hother⟩ := (hC.decode_iff ho he').mpr hexact'
  rw [hd, Except.ok.injEq] at hd'
  rw [hcommit, hother, ← hd', hid]

/-- Two commits survive storage, and tell their ids apart, exactly when their timestamps survive
canonical JSON and nothing damaged was stored under their ids. -/
theorem commits_survive_iff (hframe : ∀ b, F.decodeFrame (F.encodeFrame b) = some b)
    (ht : commit.Typed) (ho : other.Typed)
    (h : p.putCommit (F.withCommits jcs parseHash) now commit = .ok p')
    (h' : q.putCommit (F.withCommits jcs parseHash) later other = .ok q') :
    (p'.getCommit (F.withCommits jcs parseHash) {} commit.id = .ok commit ∧
        q'.getCommit (F.withCommits jcs parseHash) {} other.id = .ok other ∧
        (commit.id = other.id → commit = other)) ↔
      (commit.Exact ∧ p.commits.Undamaged F commit.id) ∧
        other.Exact ∧ q.commits.Undamaged F other.id := by
  rw [hC.getCommit_iff hframe ht h, hC.getCommit_iff hframe ho h']
  constructor
  · rintro ⟨⟨hundamaged, hexact⟩, ⟨hundamaged', hexact'⟩, -⟩
    exact ⟨⟨hexact, hundamaged⟩, hexact', hundamaged'⟩
  · rintro ⟨⟨hexact, hundamaged⟩, hexact', hundamaged'⟩
    exact ⟨⟨hundamaged, hexact⟩, ⟨hundamaged', hexact'⟩, hC.eq_of_id_eq ht ho h h' hexact hexact'⟩

end CanonicalJson

end Storage

/-! Two timestamps with one text. -/

/-- Canonical JSON of a first commit; a hash here is the text itself. -/
def takeText : String :=
  "\x7b\"author\":\x7b\"display_name\":\"Test User\",\"provider_id\":\"local-folder\"," ++
    "\"provider_user_id\":\"user-1\"\x7d,\"auru_version\":\"0.1.0\",\"description\":\"\"," ++
    "\"format_version\":8,\"message\":\"first take\",\"parents\":[],\"timestamp\":9007199254740992," ++
    "\"tree\":\x7b\"samples\":\"samples\",\"snapshot\":\"snapshot\"\x7d\x7d"

def firstTake (timestamp : Int) : Commit String where
  id := takeText
  parents := []
  tree := ⟨"snapshot", "samples"⟩
  author := ⟨"Test User", "user-1", "local-folder", none⟩
  timestamp := timestamp
  message := "first take"
  description := ""
  auruVersion := "0.1.0"
  formatVersion := 8
  metadata := none

def unhashed : Formats String String where
  contentHash := id
  zero := ""
  hashText := id
  byteLength := String.length
  encodeFrame := id
  decodeFrame := some
  encodeCommit _ := .error "unused"
  decodeCommit _ := .error "unused"
  encodeManifest _ := .error "unused"
  decodeManifest _ := .error "unused"
  encodeValue _ := ""
  decodeValue _ := .error "expected value"

def takeValue : Value := (canonicalValue unhashed (firstTake (2 ^ 53))).rounded

def takeJcs (v : Value) : Except String String :=
  if v.rounded = takeValue then .ok takeText else .error "unsupported"

def takeParse (text : String) : Except String Value :=
  if text = takeText then .ok takeValue else .error "expected value"

theorem takeParse_text : takeParse takeText = .ok takeValue := if_pos rfl

def takeFormats : Formats String String := { unhashed with decodeValue := takeParse }

theorem takeFormats_decodeValue : takeFormats.decodeValue = takeParse := rfl

theorem takeFormats_value (commit : Commit String) :
    canonicalValue takeFormats commit = canonicalValue unhashed commit := rfl

theorem takeFormats_canonical : CanonicalJson takeFormats takeJcs some where
  hash_injective _ _ h := h
  parse_hash _ := rfl
  written commit text h := by
    rw [takeFormats_value] at h ⊢
    rw [takeJcs] at h
    split at h
    · rename_i hvalue
      rw [hvalue, ← Except.ok.inj h, takeFormats_decodeValue, takeParse_text]
    · cases h

theorem firstTake_typed (timestamp : Int) (hlow : -2 ^ 63 ≤ timestamp) (hhigh : timestamp < 2 ^ 63) :
    (firstTake timestamp).Typed :=
  ⟨⟨hlow, hhigh⟩, show 8 < 2 ^ 32 by decide⟩

def emptyFolder : FilesystemProvider String String := ⟨.missing, .missing, [], []⟩

theorem firstTake_accepted (timestamp : Int)
    (h : (canonicalValue unhashed (firstTake timestamp)).rounded = takeValue) :
    ∃ p, emptyFolder.putCommit (takeFormats.withCommits takeJcs some) 0 (firstTake timestamp) =
      .ok p := by
  apply FilesystemProvider.putCommit_accepts
  · rw [withCommits_encodeCommit, takeFormats_value, takeJcs, if_pos h]
  · rfl

theorem firstTake_rounded :
    (canonicalValue unhashed (firstTake (2 ^ 53 + 1))).rounded = takeValue := by
  have hprint : (Number.ofInt (2 ^ 53 + 1)).rounded = (Number.ofInt (2 ^ 53)).rounded := by decide
  exact rounded_of_timestamp (firstTake (2 ^ 53)) hprint

/-- The commit is accepted under the id of another one, and read back as that one. -/
theorem firstTake_changed :
    CanonicalJson takeFormats takeJcs some ∧
      (firstTake (2 ^ 53)).Typed ∧ (firstTake (2 ^ 53 + 1)).Typed ∧
      ∃ p q,
        emptyFolder.putCommit (takeFormats.withCommits takeJcs some) 0 (firstTake (2 ^ 53 + 1)) =
            .ok p ∧
          p.getCommit (takeFormats.withCommits takeJcs some) {} (firstTake (2 ^ 53 + 1)).id ≠
            .ok (firstTake (2 ^ 53 + 1)) ∧
          emptyFolder.putCommit (takeFormats.withCommits takeJcs some) 0 (firstTake (2 ^ 53)) =
            .ok q ∧
          (firstTake (2 ^ 53)).id = (firstTake (2 ^ 53 + 1)).id ∧
          firstTake (2 ^ 53) ≠ firstTake (2 ^ 53 + 1) := by
  have ht := firstTake_typed (2 ^ 53 + 1) (by decide) (by decide)
  obtain ⟨p, hp⟩ := firstTake_accepted (2 ^ 53 + 1) firstTake_rounded
  obtain ⟨q, hq⟩ := firstTake_accepted (2 ^ 53) rfl
  refine ⟨takeFormats_canonical, firstTake_typed _ (by decide) (by decide), ht, p, q, hp, ?_, hq,
    rfl, ?_⟩
  · intro hget
    have hexact := ((takeFormats_canonical.getCommit_iff (fun _ => rfl) ht hp).mp hget).2
    exact absurd hexact (show ¬Binary64.print (2 ^ 53 + 1) = 2 ^ 53 + 1 by decide)
  · intro h
    exact absurd (congrArg Commit.timestamp h) (show ¬(2 ^ 53 : Int) = 2 ^ 53 + 1 by decide)

theorem firstTake_survives :
    ∃ p, emptyFolder.putCommit (takeFormats.withCommits takeJcs some) 0 (firstTake (2 ^ 53)) =
        .ok p ∧
      p.getCommit (takeFormats.withCommits takeJcs some) {} (firstTake (2 ^ 53)).id =
        .ok (firstTake (2 ^ 53)) := by
  have ht := firstTake_typed (2 ^ 53) (by decide) (by decide)
  have hexact : (firstTake (2 ^ 53)).Exact := show Binary64.print (2 ^ 53) = 2 ^ 53 by decide
  have hundamaged : emptyFolder.commits.Undamaged takeFormats (firstTake (2 ^ 53)).id := nofun
  obtain ⟨p, hp⟩ := firstTake_accepted (2 ^ 53) rfl
  have hsurvive := takeFormats_canonical.commits_survive_iff (fun _ => rfl) ht ht hp hp
  exact ⟨p, hp, (hsurvive.mpr ⟨⟨hexact, hundamaged⟩, hexact, hundamaged⟩).1⟩

end AuruPm
