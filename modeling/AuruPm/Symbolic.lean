import AuruPm.World

/-!
# A symbolic store

Formats that can be run: byte strings are terms, a term is its own hash, and the encodings pair
their parts up. The readers are those of native Auru projects, which have no wrapper, no
resources and no summary.
-/

namespace AuruPm

set_option autoImplicit false

open SortedAssoc Threads

/-- Byte strings, taken apart. -/
inductive Term where
  | text (s : String)
  | int (i : Int)
  | value (v : Value)
  | pair (a b : Term)
  deriving DecidableEq

namespace Term

/-! Encodings. -/

def ofList {α : Type} (f : α → Term) : List α → Term
  | [] => text "end"
  | a :: as => pair (f a) (ofList f as)

def toList {α : Type} (g : Term → Option α) : Term → Option (List α)
  | text _ => some []
  | pair a b => do
    let a ← g a
    let as ← toList g b
    return a :: as
  | _ => none

theorem toList_ofList {α : Type} {f : α → Term} {g : Term → Option α}
    (h : ∀ a, g (f a) = some a) (as : List α) : toList g (ofList f as) = some as := by
  induction as with
  | nil => rfl
  | cons a as ih => simp [ofList, toList, h, ih]

def ofOption {α : Type} (f : α → Term) : Option α → Term
  | none => text "none"
  | some a => pair (text "some") (f a)

def toOption {α : Type} (g : Term → Option α) : Term → Option (Option α)
  | pair _ a => (g a).map some
  | _ => some none

theorem toOption_ofOption {α : Type} {f : α → Term} {g : Term → Option α}
    (h : ∀ a, g (f a) = some a) (a : Option α) : toOption g (ofOption f a) = some a := by
  cases a with
  | none => rfl
  | some a => simp [ofOption, toOption, h]

def asText : Term → Option String
  | text s => some s
  | _ => none

def ofKind : AssetKind → Term
  | .sample => int 0
  | .analysis => int 1
  | .preset => int 2
  | .backup => int 3
  | .projectInfo => int 4
  | .other => int 5

def asKind : Term → Option AssetKind
  | int 0 => some .sample
  | int 1 => some .analysis
  | int 2 => some .preset
  | int 3 => some .backup
  | int 4 => some .projectInfo
  | int 5 => some .other
  | _ => none

theorem asKind_ofKind (kind : AssetKind) : asKind (ofKind kind) = some kind := by
  cases kind <;> rfl

def ofEntry (e : SampleEntry Term) : Term :=
  pair (pair (text e.path) e.hash) (pair (int e.size) (pair (ofKind e.kind) (ofOption text e.origin)))

def asEntry : Term → Option (SampleEntry Term)
  | pair (pair (text path) hash) (pair (int size) (pair kind origin)) => do
    let kind ← asKind kind
    let origin ← toOption asText origin
    return ⟨path, hash, size.toNat, kind, origin⟩
  | _ => none

theorem asEntry_ofEntry (e : SampleEntry Term) : asEntry (ofEntry e) = some e := by
  simp [asEntry, ofEntry, asKind_ofKind, toOption_ofOption (f := text) (g := asText) (fun _ => rfl)]

def ofAuthor (a : AuthorIdentity) : Term :=
  pair (pair (text a.displayName) (text a.providerUserId))
    (pair (text a.providerId) (ofOption text a.email))

def asAuthor : Term → Option AuthorIdentity
  | pair (pair (text displayName) (text providerUserId)) (pair (text providerId) email) => do
    let email ← toOption asText email
    return ⟨displayName, providerUserId, providerId, email⟩
  | _ => none

theorem asAuthor_ofAuthor (a : AuthorIdentity) : asAuthor (ofAuthor a) = some a := by
  simp [asAuthor, ofAuthor, toOption_ofOption (f := text) (g := asText) (fun _ => rfl)]

/-- A commit without its id. -/
def ofCommit (c : Commit Term) : Term :=
  pair (pair (ofList id c.parents) (pair c.tree.snapshot c.tree.samples))
    (pair (pair (ofAuthor c.author) (int c.timestamp))
      (pair (pair (text c.message) (text c.description))
        (pair (pair (text c.auruVersion) (int c.formatVersion)) (ofOption id c.metadata))))

def asCommit : Term → Option (Commit Term)
  | pair (pair parents (pair snapshot samples)) (pair (pair author (int timestamp))
      (pair (pair (text message) (text description))
        (pair (pair (text auruVersion) (int formatVersion)) metadata))) => do
    let parents ← toList some parents
    let author ← asAuthor author
    let metadata ← toOption some metadata
    return ⟨text "", parents, ⟨snapshot, samples⟩, author, timestamp, message, description,
      auruVersion, formatVersion.toNat, metadata⟩
  | _ => none

theorem asCommit_ofCommit (c : Commit Term) :
    asCommit (ofCommit c) = some { c with id := text "" } := by
  simp [asCommit, ofCommit, asAuthor_ofAuthor, toList_ofList (f := id) (g := some) (fun _ => rfl),
    toOption_ofOption (f := id) (g := some) (fun _ => rfl)]

def orError {α : Type} : Option α → Except String α
  | some a => .ok a
  | none => .error "invalid"

end Term

open Term in
/-- Terms for bytes and for hashes. -/
def symbolic : Formats Term Term where
  contentHash := id
  zero := text ""
  hashText _ := "hash"
  byteLength _ := 0
  encodeFrame b := pair (text "frame") b
  decodeFrame
    | pair (text "frame") b => some b
    | _ => none
  encodeCommit c := .ok (ofCommit c)
  decodeCommit b := orError (asCommit b)
  encodeManifest m := .ok (ofList ofEntry m.entries)
  decodeManifest b := orError ((toList asEntry b).map SampleManifest.mk)
  encodeValue := value
  decodeValue
    | value v => .ok v
    | _ => .error "invalid"

theorem symbolic_lawful : symbolic.Lawful where
  hash_injective _ _ h := h
  decode_frame _ := rfl
  encode_id _ _ := rfl
  decode_commit c b _ h := by
    cases h
    refine ⟨{ c with id := .text "" }, ?_, rfl⟩
    simp [symbolic, Term.asCommit_ofCommit, Term.orError]
  decode_manifest m b h := by
    cases h
    simp [symbolic, Term.toList_ofList Term.asEntry_ofEntry, Term.orError]

/-- The readers on a native Auru project. -/
def nativeReaders : Readers Term Term where
  canonicalBytes
    | .value v => .ok (.value v)
    | _ => .error "invalid"
  needsHydration _ := .ok false
  isDawproject _ := false
  resources _ := .ok []
  integrityProblems _ := []
  projectInfo _ := none

/-- A push of this document by this client, without mirrors or assets. -/
def pushOf {Client : Type} (client : Client) (document : Value) :
    PushRequest Client Term Term where
  client := client
  primaryId := "folder"
  mirrors := []
  snapshot := .value document
  author := ⟨"", "", "", none⟩
  message := "Backed up changes"
  description := ""
  resolutions := none
  snapshotResources := []
  planAssets _ := ⟨[], []⟩

/-! Two clients. -/

/-- The document of a small project. -/
def song (key title : String) : Value := .object [("key", .string key), ("title", .string title)]

/-- A restored sidecar that names the current `HEAD`. -/
def restoredAt (s : Shared Nat Term Term) : Sidecar Term := { localHead := s.versions.head? }

/-- A first version, and a second client that restored it. -/
def sharedOnce : Shared Nat Term Term :=
  let s : Shared Nat Term Term :=
    Shared.start.pushAlone symbolic nativeReaders 1 0 (pushOf 0 (song "C" "Untitled"))
  s.save 1 (restoredAt s)

/-- The first client then pushes a title, and the second one a key, which merges. -/
def twoClients : Shared Nat Term Term :=
  (sharedOnce.pushAlone symbolic nativeReaders 2 1 (pushOf 0 (song "C" "Dawn"))).pushAlone
    symbolic nativeReaders 3 2 (pushOf 1 (song "G" "Untitled"))

theorem sharedOnce_run {limits : Limits Nat Term Term} (hmay : ∀ s c, limits.Allow s c)
    (hrestore : ∀ s sidecar, limits.restore s sidecar) :
    RunOf symbolic nativeReaders limits 1 sharedOnce :=
  (RunOf.start.push hmay 1 _).restore 1 _ (hrestore _ _)

theorem twoClients_run : RunOf symbolic nativeReaders pushesOnly 3 twoClients :=
  have hmay : ∀ (s : Shared Nat Term Term) c, pushesOnly.Allow s c := fun _ c => by
    cases c <;> trivial
  ((sharedOnce_run hmay fun _ _ => trivial).push hmay 2 _).push hmay 3 _

end AuruPm
