import AuruPm.CommitText

/-!
# The reference server

Projects of many principals in one process: commits and blobs lie in maps shared by all, and
every project lists those that belong to it. A request is handled under the lock of the
database, so a handler is a function of the state. With a data folder, blobs are files and a
change of the database counts only once it is persisted; without one, all is in memory.

A path is one to one with the name of its blob, so a file is found by that name. The loops over
the history are bounded by the number of commits that they can visit.
-/

namespace AuruPm

set_option autoImplicit false

open SortedAssoc

namespace Server

/-! Authentication. -/

inductive AuthError where
  | invalidToken
  | providerUnavailable
  deriving DecidableEq

structure TokenIdentity where
  issuer : String
  subject : String
  displayName : String
  email : Option String
  scopes : List String
  deriving DecidableEq

structure AuthenticatedIdentity where
  providerId : String
  userId : String
  displayName : String
  email : Option String
  deriving DecidableEq

structure TokenValidationPolicy where
  issuer : String
  requiredScope : String
  displayNameClaims : List String
  emailClaim : String

inductive AuthMode where
  | none
  | oauth (policy : TokenValidationPolicy)

structure AuthState where
  providerId : String
  mode : AuthMode

def claimString (claims : Value) (name : String) : Option String :=
  ((claims.get name).bind Value.asStr).filter fun value => value ≠ ""

def isAsciiWhitespace (c : Char) : Bool :=
  c = ' ' || c = '\t' || c = '\n' || c = '\x0c' || c = '\r'

def splitAsciiWhitespace (s : String) : List String :=
  ((s.toList.splitOnP isAsciiWhitespace).filter fun word => word ≠ []).map String.ofList

def TokenValidationPolicy.identityFromClaims (policy : TokenValidationPolicy) (claims : Value) :
    Except AuthError TokenIdentity :=
  match claimString claims "sub" with
  | none => .error .invalidToken
  | some subject =>
    let scopes := splitAsciiWhitespace ((claimString claims "scope").getD "")
    if policy.requiredScope ∉ scopes then .error .invalidToken
    else
      .ok
        { issuer := policy.issuer
          subject := subject
          displayName := (policy.displayNameClaims.findSome? (claimString claims)).getD subject
          email := claimString claims policy.emailClaim
          scopes := scopes }

/-! State. -/

structure Principal where
  issuer : String
  subject : String
  deriving DecidableEq

def TokenIdentity.principal (identity : TokenIdentity) : Principal :=
  ⟨identity.issuer, identity.subject⟩

structure ProjectMetadata where
  genre : Option String
  tags : List String
  deriving DecidableEq

structure ProjectLocation where
  relativePath : String
  deriving DecidableEq

structure ProjectProfile where
  displayName : String
  format : String
  metadata : ProjectMetadata
  location : Option ProjectLocation
  deriving DecidableEq

structure StoredProject where
  owner : Option Principal := none
  handle : Option String := none
  head : Option String := none
  historyFloor : Option String := none
  profile : Option ProjectProfile := none
  updatedAt : Int := 0
  commits : List String := []
  blobs : List String := []
  deriving DecidableEq

structure Db (Bytes : Type) where
  blobs : List (String × Bytes)
  commits : List (String × Value)
  projects : List (String × StoredProject)
  dataDir : Bool

/-- The database and the blob files of its data folder. -/
structure State (Bytes : Type) where
  db : Db Bytes
  files : List (String × Bytes)

/-- Which file operations of one request fail, and with what. -/
structure Faults where
  persist : Option String := none
  writeBlob : Option String := none
  readBlob : String → Option String := fun _ => none
  /-- Files that are taken for missing. -/
  hidden : String → Bool := fun _ => false

def projectKey (owner : Principal) (handle : String) : String :=
  toString owner.issuer.utf8ByteSize ++ ":" ++ owner.issuer ++ ":" ++
    toString owner.subject.utf8ByteSize ++ ":" ++ owner.subject ++ ":" ++ handle

structure ProviderProject where
  handle : String
  head : String
  profile : Option ProjectProfile
  updatedAt : Int
  deriving DecidableEq

inductive Response (Bytes : Type) where
  | error (status : Nat) (code message : String)
  | conflict (current : Option String)
  | health (document : Value)
  | me (identity : AuthenticatedIdentity)
  | projects (projects : List ProviderProject)
  | noContent
  | ok
  | head (commitId : Option String)
  | advanced
  | posted (id : String)
  | commit (value : Value)
  | history (commits : List Value)
  | retention (report : RetentionReport)
  | present (present : List Bool)
  | blob (bytes : Bytes)
  /-- A loop that would never end. -/
  | endless

section Handlers
variable {Bytes : Type}

def notFound (message : String) : Response Bytes := .error 404 "not_found" message

def badReq (message : String) : Response Bytes := .error 400 "bad_request" message

def internal (message : String) : Response Bytes := .error 500 "storage_error" message

def unauthorized (message : String) : Response Bytes := .error 401 "unauthorized" message

/-- What the identity provider says of the bearer token, if the request carries one. -/
def requireAuth (auth : AuthState) (token : Option (Except AuthError Value)) :
    Except (Response Bytes) (TokenIdentity × AuthenticatedIdentity) :=
  let identity : Except (Response Bytes) TokenIdentity :=
    match auth.mode with
    | .none => .ok ⟨"local", "local-user", "Local user", none, []⟩
    | .oauth policy =>
      match token with
      | none => .error (unauthorized "a bearer token is required")
      | some claims =>
        match claims.bind policy.identityFromClaims with
        | .ok identity => .ok identity
        | .error .invalidToken => .error (unauthorized "the bearer token is invalid")
        | .error .providerUnavailable =>
          .error (.error 503 "authentication_unavailable"
            "the identity provider is temporarily unavailable")
  identity.map fun identity =>
    (identity, ⟨auth.providerId, identity.subject, identity.displayName, identity.email⟩)

/-- A change that fails to persist is not made. -/
def Db.mutatePersisted (faults : Faults) (db : Db Bytes) (mutation : Db Bytes → Db Bytes) :
    Except String (Db Bytes) :=
  if db.dataDir = false then .ok (mutation db)
  else
    match faults.persist with
    | some error => .error error
    | none => .ok (mutation db)

def State.mutatePersisted (faults : Faults) (s : State Bytes) (mutation : Db Bytes → Db Bytes)
    (done : Response Bytes) (failed : String) : State Bytes × Response Bytes :=
  match s.db.mutatePersisted faults mutation with
  | .ok db => ({ s with db := db }, done)
  | .error error => (s, internal (failed ++ error))

/-- `Db::put_blob` -/
def State.writeBlob (faults : Faults) (s : State Bytes) (hash : String) (bytes : Bytes) :
    Except String (State Bytes) :=
  if s.db.dataDir = false then
    .ok { s with db := { s.db with blobs := SortedAssoc.insert hash bytes s.db.blobs } }
  else if (get? s.files hash).isSome ∧ faults.hidden hash = false then .ok s
  else
    match faults.writeBlob with
    | some error => .error error
    | none => .ok { s with files := SortedAssoc.insert hash bytes s.files }

/-- `Db::get_blob` -/
def State.readBlob (faults : Faults) (s : State Bytes) (hash : String) :
    Except String (Option Bytes) :=
  if s.db.dataDir = false then .ok (get? s.db.blobs hash)
  else
    match faults.readBlob hash with
    | some error => .error error
    | none => .ok (get? s.files hash)

/-- `Db::has_blob` -/
def State.hasBlob (faults : Faults) (s : State Bytes) (hash : String) : Bool :=
  if s.db.dataDir = false then (get? s.db.blobs hash).isSome
  else (get? s.files hash).isSome && !faults.hidden hash

def projectFor (db : Db Bytes) (owner : Principal) (handle : String) : Option StoredProject :=
  get? db.projects (projectKey owner handle)

/-- Changes a project that is there. -/
def Db.modify (db : Db Bytes) (owner : Principal) (handle : String)
    (change : StoredProject → StoredProject) : Db Bytes :=
  match projectFor db owner handle with
  | some project =>
    { db with projects := SortedAssoc.insert (projectKey owner handle) (change project) db.projects }
  | none => db

/-! Projects. -/

/-- Newest first, then by handle. -/
def listedBefore (left right : ProviderProject) : Bool :=
  decide (right.updatedAt < left.updatedAt) ||
    (decide (left.updatedAt = right.updatedAt) && decide (left.handle ≤ right.handle))

def listed (project : StoredProject) : Option ProviderProject := do
  let handle ← project.handle
  let head ← project.head
  return ⟨handle, head, project.profile, project.updatedAt⟩

def ownProjects (db : Db Bytes) (owner : Principal) : List StoredProject :=
  (db.projects.map Prod.snd).filter fun project => decide (project.owner = some owner)

def getProjects (s : State Bytes) (owner : Principal) : Response Bytes :=
  .projects (((ownProjects s.db owner).filterMap listed).mergeSort listedBefore)

/-- A profile without a location keeps the one that the project has. -/
def registered (profile : ProjectProfile) (project : StoredProject) : StoredProject :=
  { project with
    profile := some
      { profile with
        location := profile.location.or (project.profile.bind ProjectProfile.location) } }

def putProjectProfile (faults : Faults) (owner : Principal) (handle : String)
    (profile : ProjectProfile) (s : State Bytes) : State Bytes × Response Bytes :=
  s.mutatePersisted faults
    (fun db =>
      let project :=
        (projectFor db owner handle).getD { owner := some owner, handle := some handle }
      { db with
        projects := SortedAssoc.insert (projectKey owner handle) (registered profile project)
          db.projects })
    .noContent "persist project profile: "

def getHead (owner : Principal) (handle : String) (s : State Bytes) : Response Bytes :=
  .head ((projectFor s.db owner handle).bind StoredProject.head)

def timestampOf (value : Value) : Int := ((value.get "timestamp").bind readI64).getD 0

def postHead (faults : Faults) (owner : Principal) (handle : String) (fromHead : Option String)
    (toHead : String) (s : State Bytes) : State Bytes × Response Bytes :=
  match projectFor s.db owner handle with
  | none => (s, notFound ("project " ++ handle))
  | some project =>
    if project.head ≠ fromHead then (s, .conflict project.head)
    else if toHead ∉ project.commits then
      (s, badReq "the target commit does not belong to this project")
    else
      let updatedAt := ((get? s.db.commits toHead).map timestampOf).getD 0
      s.mutatePersisted faults
        (fun db => db.modify owner handle fun project =>
          { project with head := some toHead, updatedAt := updatedAt })
        .advanced "persist project head: "

/-! Commits. -/

section Commits
variable {Hash : Type} (F : Formats Bytes Hash) (jcs : Value → Except String Bytes)
  (parseHash : String → Except String Hash)

/-- The formats of the kernel, with the encoding of commits spelled out. -/
def formats : Formats Bytes Hash := F.withCommits jcs fun text => (parseHash text).toOption

def authorMatches (author : AuthorIdentity) (authenticated : AuthenticatedIdentity) : Bool :=
  decide (author.providerId = authenticated.providerId) &&
    decide (author.providerUserId = authenticated.userId) &&
    decide (author.displayName = authenticated.displayName) &&
    author.email.all fun email => decide (some email = authenticated.email)

def requiredBlobs (commit : Commit Hash) : List String :=
  ([commit.tree.snapshot, commit.tree.samples] ++ commit.metadata.toList).map F.hashText

variable [DecidableEq Hash]

/-- A commit as a client posts it: its numbers fit their types. -/
abbrev WireCommit (Hash : Type) := { commit : Commit Hash // commit.Typed }

def postCommit (faults : Faults) (owner : Principal) (authenticated : AuthenticatedIdentity)
    (handle : String) (commit : Commit Hash) (s : State Bytes) : State Bytes × Response Bytes :=
  match FilesystemProvider.computeCommitId (formats F jcs parseHash) commit with
  | .error error => (s, badReq ("canonicalize commit: " ++ error))
  | .ok computed =>
    if commit.id ≠ computed then
      (s, badReq "commit id does not match its canonical content")
    else if authorMatches commit.author authenticated = false then
      (s, .error 403 "author_identity_mismatch"
        "commit author must match the authenticated identity")
    else
      let id := F.hashText commit.id
      let value := canonicalValue F commit
      match projectFor s.db owner handle with
      | none => (s, notFound ("project " ++ handle))
      | some project =>
        if commit.parents.any fun parent => F.hashText parent ∉ project.commits then
          (s, badReq "every parent commit must belong to this project")
        else if (requiredBlobs F commit).any fun hash => hash ∉ project.blobs then
          (s, badReq "the commit references a blob not uploaded to this project")
        else
          match s.readBlob faults (F.hashText commit.tree.samples) with
          | .error error => (s, internal ("read sample manifest: " ++ error))
          | .ok none => (s, badReq "the commit sample manifest is missing")
          | .ok (some bytes) =>
            match F.decodeManifest bytes with
            | .error error => (s, badReq ("invalid sample manifest: " ++ error))
            | .ok manifest =>
              if manifest.entries.any fun entry => F.hashText entry.hash ∉ project.blobs then
                (s, badReq "the sample manifest references a blob not uploaded to this project")
              else
                s.mutatePersisted faults
                  (fun db =>
                    { db with commits := SortedAssoc.insert id value db.commits }.modify owner
                      handle fun project =>
                        { project with commits := insertKey id project.commits })
                  (.posted id) "persist commit: "

end Commits

/-- A stored commit with its id put back. -/
def fullCommit (id : String) (value : Value) : Value := value.set "id" (.string id)

def getCommit (owner : Principal) (handle id : String) (s : State Bytes) : Response Bytes :=
  match projectFor s.db owner handle with
  | none => notFound ("project " ++ handle)
  | some project =>
    if id ∉ project.commits then notFound ("commit " ++ id)
    else
      match get? s.db.commits id with
      | some value => .commit (fullCommit id value)
      | none => notFound ("commit " ++ id)

/-! History. -/

def firstParent (value : Value) : Option String :=
  (((value.get "parents").bind Value.asArray).bind List.head?).bind Value.asStr

def summaryOf (full : Value) : Value :=
  structValue
    [("id", (full.get "id").getD .null), ("parents", (full.get "parents").getD .null),
      ("author", (full.get "author").getD .null), ("timestamp", (full.get "timestamp").getD .null),
      ("message", (full.get "message").getD .null),
      ("description", (full.get "description").getD (.string ""))]

/-- The loop of `get_history`. -/
def historyLoop (commits : List (String × Value)) (project : StoredProject) (limit : Nat)
    (before : Option String) :
    Nat → Option String → Bool → List Value → Option (List Value)
  | _, none, _, out => some out
  | 0, some _, _, _ => none
  | rounds + 1, some id, started, out =>
    if id ∉ project.commits then some out
    else
      match get? commits id with
      | none => some out
      | some value =>
        let out' := if started then out ++ [summaryOf (fullCommit id value)] else out
        if started ∧ limit ≤ out'.length then some out'
        else if some id = project.historyFloor then some out'
        else
          historyLoop commits project limit before rounds (firstParent value)
            (started || decide (some id = before)) out'

def getHistory (owner : Principal) (handle : String) (limit : Option Nat) (before : Option String)
    (s : State Bytes) : Response Bytes :=
  match projectFor s.db owner handle with
  | none => .history []
  | some project =>
    match historyLoop s.db.commits project (limit.getD 100) before (project.commits.length + 1)
        project.head before.isNone [] with
    | some commits => .history commits
    | none => .endless

/-- The loop of `post_retention`: ids and timestamps from the head down to the floor. -/
def visibleHistory (commits : List (String × Value)) (project : StoredProject) :
    Nat → Option String → List (String × Int) → Option (List (String × Int))
  | _, none, history => some history
  | 0, some _, _ => none
  | rounds + 1, some id, history =>
    match get? commits id with
    | none => some history
    | some value =>
      if id ∉ project.commits then some history
      else
        let history' := history ++ [(id, timestampOf value)]
        if some id = project.historyFloor then some history'
        else visibleHistory commits project rounds (firstParent value) history'

def postRetention (faults : Faults) (owner : Principal) (handle : String) (rule : RetentionRule)
    (s : State Bytes) : State Bytes × Response Bytes :=
  match projectFor s.db owner handle with
  | none => (s, notFound ("project " ++ handle))
  | some project =>
    match visibleHistory s.db.commits project (project.commits.length + 1) project.head [] with
    | none => (s, .endless)
    | some history =>
      let retainedLen := rule.retainedPrefixLen (history.map Prod.snd)
      match if retainedLen = 0 then none else history[retainedLen - 1]? with
      | none => (s, .retention ⟨0, 0, 0⟩)
      | some (newFloor, _) =>
        s.mutatePersisted faults
          (fun db => db.modify owner handle fun project =>
            { project with historyFloor := some newFloor })
          (.retention ⟨history.length - retainedLen, 0, 0⟩) "persist retention boundary: "

/-! Blobs. -/

def postBlobsHas (faults : Faults) (owner : Principal) (handle : String) (hashes : List String)
    (s : State Bytes) : Response Bytes :=
  match projectFor s.db owner handle with
  | none => notFound ("project " ++ handle)
  | some project =>
    .present (hashes.map fun hash => decide (hash ∈ project.blobs) && s.hasBlob faults hash)

def putBlob {Hash : Type} [DecidableEq Hash] (F : Formats Bytes Hash)
    (parseHash : String → Except String Hash) (faults : Faults) (owner : Principal)
    (handle hash : String) (body : Bytes) (s : State Bytes) : State Bytes × Response Bytes :=
  match parseHash hash with
  | .error error => (s, badReq ("invalid blob hash: " ++ error))
  | .ok parsed =>
    if F.contentHash body ≠ parsed then
      (s, badReq "blob bytes do not match the requested content hash")
    else
      match projectFor s.db owner handle with
      | none => (s, notFound ("project " ++ handle))
      | some _ =>
        match s.writeBlob faults hash body with
        | .error error => (s, internal ("persist blob: " ++ error))
        | .ok s =>
          s.mutatePersisted faults
            (fun db => db.modify owner handle fun project =>
              { project with blobs := insertKey hash project.blobs })
            .ok "persist project blob reference: "

def getBlob (faults : Faults) (owner : Principal) (handle hash : String) (s : State Bytes) :
    Response Bytes :=
  match projectFor s.db owner handle with
  | none => notFound ("project " ++ handle)
  | some project =>
    if hash ∉ project.blobs then notFound ("blob " ++ hash)
    else
      match s.readBlob faults hash with
      | .ok (some bytes) => .blob bytes
      | .ok none => notFound ("blob " ++ hash)
      | .error error => internal ("read blob: " ++ error)

end Handlers

/-! Requests. -/

inductive Call (Bytes Hash : Type) where
  | health
  | me
  | projects
  | putProjectProfile (handle : String) (profile : ProjectProfile)
  | getHead (handle : String)
  | postHead (handle : String) (fromHead : Option String) (toHead : String)
  | postCommit (handle : String) (commit : WireCommit Hash)
  | getCommit (handle id : String)
  | getHistory (handle : String) (limit : Option Nat) (before : Option String)
  | postRetention (handle : String) (rule : RetentionRule)
  | postBlobsHas (handle : String) (hashes : List String)
  | putBlob (handle hash : String) (body : Bytes)
  | getBlob (handle hash : String)

/-- A request, with what happens to it: what the identity provider says of its token, and which
file operations fail. -/
structure Request (Bytes Hash : Type) where
  token : Option (Except AuthError Value)
  call : Call Bytes Hash
  faults : Faults := {}

/-- What the server is started with, and the functions of other libraries. -/
structure Config (Bytes Hash : Type) where
  auth : AuthState
  health : Value
  F : Formats Bytes Hash
  jcs : Value → Except String Bytes
  parseHash : String → Except String Hash

section Requests
variable {Bytes Hash : Type} [DecidableEq Hash] (c : Config Bytes Hash)

def answer (identity : TokenIdentity) (authenticated : AuthenticatedIdentity) (faults : Faults)
    (s : State Bytes) : Call Bytes Hash → State Bytes × Response Bytes
  | .health => (s, .health c.health)
  | .me => (s, .me authenticated)
  | .projects => (s, getProjects s identity.principal)
  | .putProjectProfile handle profile =>
    putProjectProfile faults identity.principal handle profile s
  | .getHead handle => (s, getHead identity.principal handle s)
  | .postHead handle fromHead toHead =>
    postHead faults identity.principal handle fromHead toHead s
  | .postCommit handle commit =>
    postCommit c.F c.jcs c.parseHash faults identity.principal authenticated handle commit.1 s
  | .getCommit handle id => (s, getCommit identity.principal handle id s)
  | .getHistory handle limit before => (s, getHistory identity.principal handle limit before s)
  | .postRetention handle rule => postRetention faults identity.principal handle rule s
  | .postBlobsHas handle hashes => (s, postBlobsHas faults identity.principal handle hashes s)
  | .putBlob handle hash body => putBlob c.F c.parseHash faults identity.principal handle hash body s
  | .getBlob handle hash => (s, getBlob faults identity.principal handle hash s)

/-- The router: all but `/v1/health` needs an identity. -/
def handle (s : State Bytes) (request : Request Bytes Hash) : State Bytes × Response Bytes :=
  match request.call with
  | .health => (s, .health c.health)
  | call =>
    match requireAuth c.auth request.token with
    | .error response => (s, response)
    | .ok (identity, authenticated) => answer c identity authenticated request.faults s call

def run (s : State Bytes) (requests : List (Request Bytes Hash)) : State Bytes :=
  requests.foldl (fun s request => (handle c s request).1) s

def State.empty (dataDir : Bool) : State Bytes := ⟨⟨[], [], [], dataDir⟩, []⟩

end Requests

end Server

end AuruPm
