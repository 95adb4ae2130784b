import AuruPm.MirrorHead
import AuruPm.SymbolicProjects

/-!
# Getting the stashed work back

A push that finds the remote ahead stashes the local work before it merges. `stashedSnapshot`
reads the stash back, with the resources of a DAWproject in it. Others may push in between.
-/

namespace AuruPm

set_option autoImplicit false

open SortedAssoc Threads

variable {Client Bytes Hash : Type}

/-! Reading the stash. -/

namespace Push

section Programs
variable [DecidableEq Hash] (F : Formats Bytes Hash) (C : Codecs Bytes Hash)

/-- One resource object with the protected bytes in it. -/
def inlineResource (resources : List (String × Hash)) : Value → Push Bytes Hash Value
  | .object object =>
    match (get? object "id").bind Value.asStr with
    | none => .fail "stashed DAWproject resource is missing its path"
    | some path =>
      let label := "stashed DAWproject resource '" ++ path ++ "'"
      match get? resources path with
      | none => .fail (label ++ " has no protected blob")
      | some expected =>
        match get? object "hash" with
        | none => .fail (label ++ " has no hash")
        | some hash => do
          let recorded ← Prog.ofExcept
            (wrapped ("read stashed DAWproject resource hash for '" ++ path ++ "'")
              (serdeResult (readHash C hash)))
          if recorded ≠ expected then .fail (label ++ " does not match its protected hash")
          else
            match (get? object "size").bind readU64 with
            | none => .fail (label ++ " has no recorded size")
            | some size => do
              let bytes ← ask (.getBlob expected) ("fetch " ++ label)
              if F.contentHash bytes ≠ expected ∨ F.byteLength bytes ≠ size then
                .fail (label ++ " does not match its protected hash and size")
              else pure (.object (inlinedFields (C.base64Encode bytes) object))
  | _ => .fail "stashed DAWproject resource is not an object"

def inlineResources (resources : List (String × Hash)) : List Value → Push Bytes Hash (List Value)
  | [] => pure []
  | resource :: rest => do
    let resource ← inlineResource F C resources resource
    let rest ← inlineResources resources rest
    pure (resource :: rest)

/-- A version-two stash as a self-contained version-one snapshot. -/
def inlineStash (resources : List (String × Hash)) (bytes : Bytes) :
    Push Bytes Hash (Option Bytes) := do
  let stored ← Prog.ofExcept (wrapped "validate stashed snapshot"
    (ProjectSnapshot.fromCanonicalBytes F C bytes))
  if stored.format ≠ .dawproject then
    .fail "only a DAWproject stash may declare detached resources"
  else do
    match ← Prog.ofExcept (wrapped "parse stashed snapshot" (F.decodeValue bytes)) with
    | .object fields =>
      match (get? fields "resources").bind Value.asArray with
      | none => .fail "stashed DAWproject snapshot is missing its resources"
      | some elems => do
        let elems ← inlineResources F C resources elems
        let encoded := F.encodeValue (.object (recoveredFields elems fields))
        let recovered ← Prog.ofExcept (wrapped "validate stashed snapshot"
          (ProjectSnapshot.fromCanonicalBytes F C encoded))
        let _ ← Prog.ofExcept (wrapped "validate stashed DAWproject resources"
          (ProjectSnapshot.restoreBytes F C recovered))
        pure (some recovered.canonicalBytes)
    | _ => .fail "stashed DAWproject snapshot is missing its resources"

def stashedSnapshot : Push Bytes Hash (Option Bytes) := do
  let sidecar ← ask .loadSidecar "load sidecar"
  match sidecar.stash with
  | none => pure none
  | some stash => do
    let bytes ← ask (.getBlob stash.snapshot) "fetch stashed snapshot"
    if stash.resources.isEmpty then pure (some bytes)
    else inlineStash F C stash.resources bytes

end Programs

/-! The push, cut after its stash. -/

/-- What a push does with the result of its merge. -/
def settle [DecidableEq Hash] (F : Formats Bytes Hash) (R : Readers Bytes Hash)
    (request : PushRequest Client Bytes Hash) :
    Reconciled Bytes Hash → Push Bytes Hash (PushOutcome Hash)
  | .stopped outcome => pure outcome
  | .ready prepared => commitPrepared F R request prepared

variable {F : Formats Bytes Hash} {R : Readers Bytes Hash}
variable {request : PushRequest Client Bytes Hash}

/-- The resources that a stash has to store. -/
def detachedOf (F : Formats Bytes Hash) (R : Readers Bytes Hash)
    (request : PushRequest Client Bytes Hash) :
    Except String (List (SnapshotResource Bytes Hash)) := do
  let canonical ← wrapped "validate local snapshot before stashing" (R.canonicalBytes request.snapshot)
  let value ← wrapped "read local snapshot before stashing" (F.decodeValue canonical)
  let hydrates ← wrapped "inspect local snapshot before stashing" (R.needsHydration canonical)
  wrapped "read local DAWproject resources before stashing"
    (if hydrates then R.resources value else .ok [])

theorem stashSnapshot_eq [DecidableEq Hash] (base : Option Hash) (reason : String) :
    stashSnapshot F R request base reason = Prog.ofExcept (detachedOf F R request) >>=
      fun detached => stashResources F request.snapshotResources detached [] >>= fun resources =>
        ask (.putBlob (F.contentHash request.snapshot) request.snapshot) "stash local snapshot" >>=
          fun _ => modifySidecar "record stash in sidecar" (fun now sidecar => { sidecar with
            stash := some ⟨F.contentHash request.snapshot, resources, (now.val : Int), base,
              reason⟩ }) >>= fun _ => pure (F.contentHash request.snapshot) := by
  have hok : ∀ {α β : Type} (a : α) (f : α → Except String β), (Except.ok a >>= f) = f a :=
    fun _ _ => rfl
  unfold stashSnapshot detachedOf
  cases wrapped "validate local snapshot before stashing" (R.canonicalBytes request.snapshot) with
  | error e => rfl
  | ok canonical =>
    simp only [Prog.ofExcept, Prog.done_bind, hok]
    cases wrapped "read local snapshot before stashing" (F.decodeValue canonical) with
    | error e => rfl
    | ok value =>
      simp only [Prog.done_bind, hok]
      cases wrapped "inspect local snapshot before stashing" (R.needsHydration canonical) with
      | error e => rfl
      | ok hydrates => rfl

end Push

/-! What a stash keeps. -/

section Stashing
variable [DecidableEq Client] [DecidableEq Hash]

/-- Every stored blob can be read back. -/
def FilesystemProvider.Healthy (F : Formats Bytes Hash) (p : FilesystemProvider Bytes Hash) : Prop :=
  ∀ e ∈ p.blobs, ∃ bytes, Cas.plain F e.1 e.2 = some bytes

/-- Others act at the provider, where every blob stays, and leave the sidecar of this client. -/
structure Aside (F : Formats Bytes Hash) (client : Client) (s s' : Shared Client Bytes Hash) :
    Prop where
  healthy : s.provider.Healthy F → s'.provider.Healthy F
  keeps : ∀ hash bytes, s.provider.blobs.get F {} hash = .ok bytes →
    s'.provider.blobs.get F {} hash = .ok bytes
  sidecar : s'.sidecar client = s.sidecar client

/-- The map from the paths of resources to their hashes. -/
def protectedBlobs (detached : List (SnapshotResource Bytes Hash)) (stored : List (String × Hash)) :
    List (String × Hash) :=
  detached.foldl (fun stored r => SortedAssoc.insert r.path r.hash stored) stored

/-- The bytes given for a resource are stored under its hash. -/
def KeptResource (F : Formats Bytes Hash) (given : List (String × Bytes))
    (s : Shared Client Bytes Hash) (r : SnapshotResource Bytes Hash) : Prop :=
  ∃ bytes, get? given r.path = some bytes ∧ F.contentHash bytes = r.hash ∧
    F.byteLength bytes = r.size ∧ s.provider.blobs.get F {} r.hash = .ok bytes

/-- The client's sidecar names a stash of its work, and all that the stash names is stored. -/
structure Stashed (F : Formats Bytes Hash) (request : PushRequest Client Bytes Hash)
    (detached : List (SnapshotResource Bytes Hash)) (s : Shared Client Bytes Hash) : Prop where
  stash : ∃ stash, (s.sidecar request.client).stash = some stash ∧
    stash.snapshot = F.contentHash request.snapshot ∧
    stash.resources = protectedBlobs detached []
  snapshot : s.provider.blobs.get F {} (F.contentHash request.snapshot) = .ok request.snapshot
  resources : ∀ r ∈ detached, KeptResource F request.snapshotResources s r

variable {F : Formats Bytes Hash} {R : Readers Bytes Hash} {push : Nat}
variable {request : PushRequest Client Bytes Hash} {client : Client}
variable {detached : List (SnapshotResource Bytes Hash)} {s s' s'' : Shared Client Bytes Hash}

omit [DecidableEq Client] in
theorem Aside.refl (s : Shared Client Bytes Hash) : Aside F client s s :=
  ⟨id, fun _ _ h => h, rfl⟩

omit [DecidableEq Client] in
theorem Aside.trans (h : Aside F client s s') (h' : Aside F client s' s'') : Aside F client s s'' :=
  ⟨fun hs => h'.healthy (h.healthy hs), fun hash bytes hb => h'.keeps hash bytes (h.keeps hash bytes hb),
    h'.sidecar.trans h.sidecar⟩

omit [DecidableEq Client] in
theorem KeptResource.aside {given : List (String × Bytes)} {r : SnapshotResource Bytes Hash}
    (h : KeptResource F given s r) (ha : Aside F client s s') : KeptResource F given s' r := by
  obtain ⟨bytes, hgiven, hhash, hsize, hget⟩ := h
  exact ⟨bytes, hgiven, hhash, hsize, ha.keeps _ _ hget⟩

omit [DecidableEq Client] in
theorem Stashed.aside (h : Stashed F request detached s) (ha : Aside F request.client s s') :
    Stashed F request detached s' where
  stash := by
    rw [ha.sidecar]
    exact h.stash
  snapshot := ha.keeps _ _ h.snapshot
  resources r hr := (h.resources r hr).aside ha

/-- Calls other than a write of the sidecar. -/
def Call.LeavesSidecar : Call Bytes Hash → Prop
  | .saveSidecar _ => False
  | _ => True

theorem healthy_put (hF : F.Lawful) {p p' : FilesystemProvider Bytes Hash} {now : Nat} {hash : Hash}
    {bytes : Bytes} (hs : p.Healthy F) (h : p.putBlob F now hash bytes = .ok p') :
    p'.Healthy F := by
  obtain ⟨blobs, hput, rfl⟩ := map_ok_iff.mp h
  obtain ⟨rfl, ⟨rfl, -⟩ | ⟨rfl, -⟩⟩ := Cas.put_cases hput
  · exact hs
  · intro e he
    rcases List.mem_cons.mp he with rfl | he
    · exact ⟨bytes, hF.plain_encodeFrame bytes now⟩
    · exact hs e he

/-- Only a write of the sidecar does more than others may do. -/
theorem aside_of_step (hF : F.Lawful) {c : Call Bytes Hash} {r : Except Error c.Answer}
    (h : AloneStep F push request s c r s') (hc : c.LeavesSidecar ∨ ∃ e, r = .error e) :
    Aside F client s s' := by
  cases h with
  | failed e => exact .refl s
  | answered clock hp =>
    replace hc : c.LeavesSidecar := hc.resolve_right fun ⟨e, he⟩ => by cases he
    cases c with
    | now => cases hp; exact .refl s
    | loadSidecar => cases hp; exact .refl s
    | saveSidecar sidecar => exact False.elim hc
    | getHead =>
      obtain ⟨_, -, heq⟩ := map_ok_iff.mp hp
      cases heq
      exact .refl s
    | getBlob hash =>
      obtain ⟨_, -, heq⟩ := map_ok_iff.mp hp
      cases heq
      exact .refl s
    | getCommit id =>
      obtain ⟨_, -, heq⟩ := map_ok_iff.mp hp
      cases heq
      exact .refl s
    | putBlob hash bytes =>
      obtain ⟨p, hput, heq⟩ := map_ok_iff.mp hp
      cases heq
      refine ⟨fun hs => healthy_put hF hs hput, fun k content hk => ?_, rfl⟩
      obtain ⟨blobs, hblobs, rfl⟩ := map_ok_iff.mp hput
      exact Cas.get_put hblobs hk
    | putCommit commit =>
      obtain ⟨p, hput, heq⟩ := map_ok_iff.mp hp
      cases heq
      obtain ⟨-, _, _, -, -, rfl⟩ := FilesystemProvider.putCommit_ok hput
      exact ⟨id, fun _ _ h => h, rfl⟩
    | advanceHead fromHead toHead =>
      obtain ⟨⟨p, answer⟩, hadv, heq⟩ := map_ok_iff.mp hp
      cases answer with
      | conflict current =>
        cases heq
        exact .refl s
      | advanced =>
        cases heq
        obtain ⟨-, rfl, -⟩ := FilesystemProvider.advanceHead_spec hadv
        exact ⟨id, fun _ _ h => h, rfl⟩

/-- What a program guarantees among others that stay aside. -/
abbrev Among {α : Type} (F : Formats Bytes Hash) (push : Nat) (request : PushRequest Client Bytes Hash)
    (post : Except String α → Shared Client Bytes Hash → Prop) (x : Push Bytes Hash α)
    (s : Shared Client Bytes Hash) : Prop :=
  Meets (Aside F request.client) (AloneStep F push request) (fun _ _ => True) post x s

omit [DecidableEq Client] [DecidableEq Hash] in
theorem protectedBlobs_cons (r : SnapshotResource Bytes Hash) (rest : List (SnapshotResource Bytes Hash))
    (stored : List (String × Hash)) :
    protectedBlobs (r :: rest) stored =
      protectedBlobs rest (SortedAssoc.insert r.path r.hash stored) :=
  rfl

/-- A stored resource is as given, and it stays. -/
theorem among_stashResource (hF : F.Lawful) (hs : s.provider.Healthy F)
    (r : SnapshotResource Bytes Hash) :
    Among F push request (onOk fun entry s' => entry = (r.path, r.hash) ∧
        KeptResource F request.snapshotResources s' r ∧ Aside F request.client s s')
      (Push.stashResource F request.snapshotResources r) s := by
  unfold Push.stashResource
  split
  · exact fun _ _ => trivial
  · rename_i bytes hgiven
    split
    · exact fun _ _ => trivial
    · rename_i hmatch
      obtain ⟨hhash, hsize⟩ := not_or.mp hmatch
      refine Meets.run_bind_ok (fun _ _ => trivial) fun s₁ _ s₂ h₁ hstep => ?_
      refine Meets.pure_ok fun s₃ h₃ => ⟨rfl, ?_, ?_⟩
      · refine KeptResource.aside ⟨bytes, hgiven, not_not.mp hhash, not_not.mp hsize, ?_⟩ h₃
        cases hstep with
        | answered clock hp =>
          obtain ⟨p, hput, heq⟩ := map_ok_iff.mp hp
          cases heq
          obtain ⟨blobs, hblobs, rfl⟩ := map_ok_iff.mp hput
          exact Cas.get_put_self hF (h₁.healthy hs) hblobs
      · exact (h₁.trans (aside_of_step hF hstep (Or.inl trivial))).trans h₃

theorem among_stashResources (hF : F.Lawful) (hs : s.provider.Healthy F)
    (rs : List (SnapshotResource Bytes Hash)) (stored : List (String × Hash)) :
    Among F push request (onOk fun resources s' => resources = protectedBlobs rs stored ∧
        (∀ r ∈ rs, KeptResource F request.snapshotResources s' r) ∧ Aside F request.client s s')
      (Push.stashResources F request.snapshotResources rs stored) s := by
  induction rs generalizing s stored with
  | nil => exact Meets.pure_ok fun s' h => ⟨rfl, fun _ hr => absurd hr List.not_mem_nil, h⟩
  | cons r rest ih =>
    refine Meets.bind_ok Aside.refl (among_stashResource hF hs r) fun entry s₁ h₁ => ?_
    obtain ⟨rfl, hkept, h₁⟩ := h₁
    refine (ih (h₁.healthy hs) _).weaken_ok fun resources s₂ h₂ => ?_
    obtain ⟨rfl, hrest, h₂⟩ := h₂
    refine ⟨protectedBlobs_cons r rest stored ▸ rfl, fun r' hr' => ?_, h₁.trans h₂⟩
    rcases List.mem_cons.mp hr' with rfl | hr'
    · exact hkept.aside h₂
    · exact hrest r' hr'

/-- A stash step that ends well leaves the work stashed. -/
theorem among_stashSnapshot (hF : F.Lawful) (hs : s.provider.Healthy F) (base : Option Hash)
    (reason : String) :
    Among F push request (onOk fun _ s' => ∃ detached, Push.detachedOf F R request = .ok detached ∧
        Stashed F request detached s')
      (Push.stashSnapshot F R request base reason) s := by
  rw [Push.stashSnapshot_eq]
  refine Meets.ofExcept_bind (fun detached hdetached => ?_) fun _ _ _ _ => trivial
  refine Meets.bind_ok Aside.refl (among_stashResources hF hs detached [])
    fun resources s₁ h₁ => ?_
  obtain ⟨rfl, hkept, h₁⟩ := h₁
  refine Meets.run_bind_ok (fun _ _ => trivial) fun s₂ _ s₃ h₂ hput => ?_
  have h₃ : Aside F request.client s₁ s₃ :=
    h₂.trans (aside_of_step hF hput (Or.inl trivial))
  have hsnapshot : s₃.provider.blobs.get F {} (F.contentHash request.snapshot) =
      .ok request.snapshot := by
    cases hput with
    | answered clock hp =>
      obtain ⟨p, hput, heq⟩ := map_ok_iff.mp hp
      cases heq
      obtain ⟨blobs, hblobs, rfl⟩ := map_ok_iff.mp hput
      exact Cas.get_put_self hF (h₂.healthy (h₁.healthy hs)) hblobs
  simp only [Push.modifySidecar, Prog.bind_assoc]
  refine Meets.run_bind_ok (fun _ _ => trivial) fun s₄ sidecar s₅ h₄ hload => ?_
  refine Meets.run_bind_ok (fun _ _ => trivial) fun s₆ now s₇ h₆ hnow => ?_
  refine Meets.run_bind_ok (fun _ _ => trivial) fun s₈ _ s₉ h₈ hsave => ?_
  have h₇ := (h₄.trans (aside_of_step hF hload (Or.inl trivial))).trans
    ((h₆.trans (aside_of_step hF hnow (Or.inl trivial))).trans h₈)
  refine Meets.pure_ok fun s' h' => ⟨detached, hdetached, Stashed.aside ?_ h'⟩
  cases hsave with
  | answered clock hp =>
    cases hp
    refine ⟨⟨⟨F.contentHash request.snapshot, protectedBlobs detached [], (now.val : Int), base,
      reason⟩, ?_, rfl, rfl⟩, h₇.keeps _ _ hsnapshot, fun r hr => ?_⟩
    · simp only [Shared.save, Function.update_self]
    · obtain ⟨bytes, hgiven, hhash, hsize, hget⟩ := hkept r hr
      exact ⟨bytes, hgiven, hhash, hsize, (h₃.trans h₇).keeps _ _ hget⟩

/-! What comes after. -/

/-- A push ends with a commit, or its work is still stashed. -/
def CommitsOrKeeps (F : Formats Bytes Hash) (request : PushRequest Client Bytes Hash)
    (detached : List (SnapshotResource Bytes Hash)) (result : Except String (PushOutcome Hash))
    (s : Shared Client Bytes Hash) : Prop :=
  (∃ id wasMerge mirrors unavailable, result = .ok (.committed id wasMerge mirrors unavailable)) ∨
    Stashed F request detached s

/-- A part of a push that leaves the sidecar keeps the stash. -/
theorem among_stashed {α : Type} (hF : F.Lawful) (h : Stashed F request detached s)
    {x : Push Bytes Hash α} (hx : x.Only Call.LeavesSidecar) :
    Among F push request (fun _ s' => Stashed F request detached s') x s :=
  Meets.invariant (fun _ _ ha h => h.aside ha)
    (fun _ _ _ _ hc hstep h => h.aside (aside_of_step hF hstep (Or.inl hc)))
    (fun _ _ _ _ => trivial) hx h

theorem among_finish (hF : F.Lawful) (h : Stashed F request detached s) (d : Delivery Bytes Hash) :
    Among F push request (CommitsOrKeeps F request detached) (Push.finish request d) s := by
  have hload : ∀ {c : Call Bytes Hash} {what : String}, c.LeavesSidecar →
      ∀ {f : c.Answer → Push Bytes Hash (PushOutcome Hash)} {s : Shared Client Bytes Hash},
      Stashed F request detached s →
      (∀ a s', Stashed F request detached s' →
        Among F push request (CommitsOrKeeps F request detached) (f a) s') →
      Among F push request (CommitsOrKeeps F request detached) (ask c what >>= f) s := by
    intro c what hc f s hs hf
    refine Meets.run_bind (fun _ _ => trivial) (fun s₁ a s₂ h₁ hstep => ?_)
      fun s₁ e s₂ s₃ h₁ hstep h₃ => ?_
    · exact hf a s₂ ((hs.aside h₁).aside (aside_of_step hF hstep (Or.inl hc)))
    · exact Or.inr (((hs.aside h₁).aside (aside_of_step hF hstep (Or.inl hc))).aside h₃)
  simp only [Push.finish, Push.modifySidecar, Prog.bind_assoc]
  refine hload (by trivial) h fun sidecar s₁ h₁ => hload (by trivial) h₁ fun now s₂ h₂ => ?_
  refine Meets.run_bind (fun _ _ => trivial) (fun s₃ _ s₄ _ _ s' _ => ?_)
    fun s₃ e s₄ s₅ h₃ hstep h₅ => ?_
  · exact Or.inl ⟨_, _, _, _, rfl⟩
  · exact Or.inr (((h₂.aside h₃).aside (aside_of_step hF hstep (Or.inr ⟨e, rfl⟩))).aside h₅)

/-- Whatever happens after the stash, the work stays stashed unless the push commits. -/
theorem among_afterStash (hF : F.Lawful) (h : Stashed F request detached s) (localId remoteId : Hash) :
    Among F push request (CommitsOrKeeps F request detached)
      (Push.mergeStashed F R request localId remoteId >>= Push.settle F R request) s := by
  have hobject : ∀ c : Call Bytes Hash, c.IsObject → c.LeavesSidecar := fun c hc => by
    cases c <;> trivial
  have hremote : ∀ c : Call Bytes Hash, c.IsRemote → c.LeavesSidecar := fun c hc => by
    cases c <;> trivial
  refine Meets.bind Aside.refl ((among_stashed hF h
    (Push.only_mergeStashed.imp hobject)).weaken fun r s₁ h₁ => ?_)
  cases r with
  | error e => exact Or.inr h₁
  | ok reconciled =>
    cases reconciled with
    | stopped outcome => exact fun s' h' => Or.inr (h₁.aside h')
    | ready prepared =>
      simp only [Push.settle, Push.commitPrepared_eq]
      refine Meets.bind Aside.refl ((among_stashed hF h₁
        (Push.only_commitToPrimary.imp hremote)).weaken fun r s₂ h₂ => ?_)
      cases r with
      | error e => exact Or.inr h₂
      | ok d => exact among_finish hF h₂ d

/-! A push past its stash. -/

/-- A part of a push, among others that stay aside. -/
abbrev RunsAmong {α : Type} (F : Formats Bytes Hash) (push : Nat)
    (request : PushRequest Client Bytes Hash) (s : Shared Client Bytes Hash) (x : Push Bytes Hash α)
    (s' : Shared Client Bytes Hash) (result : Except String α) : Prop :=
  Runs (amid (Aside F request.client) (AloneStep F push request)) s x s' result

/-- A push that found the remote ahead, stashed its work and then ended so. -/
def PastStash (F : Formats Bytes Hash) (R : Readers Bytes Hash) (push : Nat)
    (request : PushRequest Client Bytes Hash) (s s' : Shared Client Bytes Hash)
    (result : Except String (PushOutcome Hash)) : Prop :=
  ∃ (sidecar : Sidecar Hash) (localId remoteId hash : Hash) (s₁ s₂ s₃ : Shared Client Bytes Hash),
    RunsAmong F push request s (ask .getHead "get remote head") s₁ (.ok (some remoteId)) ∧
    RunsAmong F push request s₁ (ask .loadSidecar "load sidecar") s₂ (.ok sidecar) ∧
    sidecar.localHead = some localId ∧ remoteId ≠ localId ∧
    RunsAmong F push request s₂
      (Push.stashSnapshot F R request (some localId) "before merging with the latest version")
      s₃ (.ok hash) ∧
    RunsAmong F push request s₃
      (Push.mergeStashed F R request localId remoteId >>= Push.settle F R request) s' result

/-- Runs a push whose calls all succeed, if it gets past its stash. -/
def playPastStash (F : Formats Bytes Hash) (R : Readers Bytes Hash) (clock : Clock) (push : Nat)
    (request : PushRequest Client Bytes Hash) (s : Shared Client Bytes Hash) :
    Option (Shared Client Bytes Hash × Except String (PushOutcome Hash)) :=
  let perform s c := Shared.perform F s clock push request c
  match (ask .getHead "get remote head").succeed perform s with
  | some (s₁, .ok (some remoteId)) =>
    match (ask .loadSidecar "load sidecar").succeed perform s₁ with
    | some (s₂, .ok sidecar) =>
      match sidecar.localHead with
      | some localId =>
        if remoteId = localId then none
        else
          match (Push.stashSnapshot F R request (some localId)
              "before merging with the latest version").succeed perform s₂ with
          | some (s₃, .ok _) =>
            (Push.mergeStashed F R request localId remoteId >>=
              Push.settle F R request).succeed perform s₃
          | _ => none
      | none => none
    | _ => none
  | _ => none

theorem pastStash_of_play {clock : Clock} {result : Except String (PushOutcome Hash)}
    (h : playPastStash F R clock push request s = some (s', result)) :
    PastStash F R push request s s' result := by
  have hruns : ∀ {α : Type} {x : Push Bytes Hash α} {s s' : Shared Client Bytes Hash}
      {r : Except String α},
      x.succeed (fun s c => Shared.perform F s clock push request c) s = some (s', r) →
      RunsAmong F push request s x s' r :=
    fun h => runs_of_succeed (fun s _ _ _ hp => ⟨s, .refl s, .answered clock hp⟩) h
  unfold playPastStash at h
  dsimp only at h
  split at h
  · rename_i s₁ remoteId hhead
    split at h
    · rename_i s₂ sidecar hload
      split at h
      · rename_i localId hlocal
        split at h
        · cases h
        · rename_i hne
          split at h
          · rename_i s₃ hash hstash
            exact ⟨sidecar, localId, remoteId, hash, s₁, s₂, s₃, hruns hhead, hruns hload, hlocal, hne,
              hruns hstash, hruns h⟩
          · cases h
      · cases h
    · cases h
  · cases h

/-- It is a run of the whole push. -/
theorem PastStash.runs {result : Except String (PushOutcome Hash)}
    (h : PastStash F R push request s s' result) :
    RunsAmong F push request s (Push.pushWithOptions F R request) s' result := by
  obtain ⟨sidecar, localId, remoteId, hash, s₁, s₂, s₃, hhead, hload, hlocal, hne, hstash, hrest⟩ := h
  refine hhead.bind (hload.bind ?_)
  have hdiverged : Push.reconcile F R request (some remoteId) sidecar.localHead =
      Push.mergeWithRemote F R request localId remoteId := by
    rw [hlocal, Push.reconcile, if_neg fun heq => hne (Option.some.inj heq)]
  rw [hdiverged, Push.mergeWithRemote_eq, Prog.bind_assoc]
  refine hstash.bind ?_
  have hsettle : (fun reconciled : Push.Reconciled Bytes Hash => match reconciled with
      | .stopped outcome => pure outcome
      | .ready prepared => Push.commitPrepared F R request prepared) =
      Push.settle F R request := by
    funext reconciled
    cases reconciled <;> rfl
  exact hsettle ▸ hrest

/-- A push past its stash that commits nothing leaves its work stashed. -/
theorem PastStash.stashed {result : Except String (PushOutcome Hash)} (hF : F.Lawful)
    (h : PastStash F R push request s s' result) (hs : s.provider.Healthy F)
    (hresult : ∀ id wasMerge mirrors unavailable,
      result ≠ .ok (.committed id wasMerge mirrors unavailable)) :
    ∃ detached, Push.detachedOf F R request = .ok detached ∧ Stashed F request detached s' := by
  obtain ⟨sidecar, localId, remoteId, hash, s₁, s₂, s₃, hhead, hload, -, -, hstash, hrest⟩ := h
  have hquiet : ∀ {c : Call Bytes Hash} {what : String} {s s' : Shared Client Bytes Hash}
      {r : Except String c.Answer}, c.LeavesSidecar →
      RunsAmong F push request s (ask c what) s' r → Aside F request.client s s' := by
    intro c what s s' r hc hr
    have hm : Among F push request (fun _ s' => Aside F request.client s s') (ask c what) s :=
      Meets.invariant (fun _ _ ha h => h.trans ha)
        (fun _ _ _ _ hc hstep h => h.trans (aside_of_step hF hstep (Or.inl hc)))
        (fun _ _ _ _ => trivial) (Push.only_ask hc) (.refl s)
    exact hm.runAmid hr (.refl s')
  have h₂ := (hquiet (by trivial) hhead).trans (hquiet (by trivial) hload)
  obtain ⟨detached, hdetached, hkept⟩ :=
    (among_stashSnapshot hF (h₂.healthy hs) _ _).runAmid hstash (.refl s₃)
  refine ⟨detached, hdetached, ?_⟩
  rcases (among_afterStash hF hkept localId remoteId).runAmid hrest (.refl s') with hdone | hkept
  · obtain ⟨id, wasMerge, mirrors, unavailable, heq⟩ := hdone
    exact absurd heq (hresult id wasMerge mirrors unavailable)
  · exact hkept

/-! Programs that succeed alone. -/

section Alone
variable {clock : Clock}

theorem alone_bind {α β : Type} {x : Push Bytes Hash α} {f : α → Push Bytes Hash β} {a : α}
    (h : s.alone F clock push request x = (s', .ok a)) :
    s.alone F clock push request (x >>= f) = s'.alone F clock push request (f a) := by
  induction x generalizing s with
  | done b =>
    cases h
    rfl
  | fail e => cases h
  | call c next ih =>
    simp only [Prog.call_bind, Shared.alone] at h ⊢
    split
    · rename_i answer s₁ hp
      rw [hp] at h
      exact ih (.ok answer) h
    · rename_i e hp
      rw [hp] at h
      exact ih (.error e) h

theorem alone_getBlob {hash : Hash} {bytes : Bytes} {what : String}
    (h : s.provider.blobs.get F {} hash = .ok bytes) :
    s.alone F clock push request (ask (.getBlob hash) what) = (s, .ok bytes) := by
  have hp : s.perform F clock push request (.getBlob hash) = .ok (bytes, s) := by
    change (s.provider.getBlob F {} hash).map _ = _
    rw [FilesystemProvider.getBlob, h]
    rfl
  simp only [ask, Prog.run, Shared.alone, hp]

/-! Evaluating the recovery. -/

variable {C : Codecs Bytes Hash} {given : List (String × Bytes)} {stored : List (String × Hash)}

/-- The stored bytes of a resource are put in its place. -/
theorem alone_inlineResource {v : Value} {d : SnapshotResource Bytes Hash}
    (hd : DetachedAt C v d) (hstored : get? stored d.path = some d.hash)
    (hkept : KeptResource F given s d) :
    ∃ v', Inlines C given v v' ∧ ∀ clock,
      s.alone F clock push request (Push.inlineResource F C stored v) = (s, .ok v') := by
  obtain ⟨fields, r, rfl, hr, hid, hhash, hsize⟩ := hd
  obtain ⟨bytes, hgiven, hhash', hsize', hget⟩ := hkept
  refine ⟨_, ⟨fields, r, rfl, hr, rfl⟩, fun clock => ?_⟩
  obtain ⟨hidField, -, hhashField, hsizeField⟩ := readResource_object_iff.mp hr
  rw [hhash] at hhashField
  rw [hsize] at hsizeField
  obtain ⟨hashValue, hfield, -, hread⟩ := readOption_some_iff.mp hhashField
  obtain ⟨sizeValue, hfield', -, hread'⟩ := readOption_some_iff.mp hsizeField
  have htext : entryText C given r = C.base64Encode bytes := by
    rw [entryText, hid, hgiven]
    rfl
  simp only [Push.inlineResource, hidField, hid, hstored, hfield, hread, serdeResult, wrapped,
    Prog.ofExcept, Prog.done_bind, ne_eq, not_true_eq_false, if_false, hfield', Option.bind_some,
    hread']
  rw [alone_bind (alone_getBlob hget), if_neg (by simp [hhash', hsize']), htext]
  rfl

theorem alone_inlineResources {elems : List Value} {detached : List (SnapshotResource Bytes Hash)}
    (h : List.Forall₂ (DetachedAt C) elems detached)
    (hstored : ∀ d ∈ detached, get? stored d.path = some d.hash)
    (hkept : ∀ d ∈ detached, KeptResource F given s d) :
    ∃ elems', List.Forall₂ (Inlines C given) elems elems' ∧ ∀ clock,
      s.alone F clock push request (Push.inlineResources F C stored elems) = (s, .ok elems') := by
  induction h with
  | nil => exact ⟨[], .nil, fun _ => rfl⟩
  | @cons v d elems detached hd _ ih =>
    obtain ⟨v', hv, halone⟩ : ∃ v', Inlines C given v v' ∧ ∀ clock,
        s.alone F clock push request (Push.inlineResource F C stored v) = (s, .ok v') :=
      alone_inlineResource hd (hstored d List.mem_cons_self) (hkept d List.mem_cons_self)
    obtain ⟨elems', helems, halone'⟩ := ih (fun d' hd' => hstored d' (List.mem_cons_of_mem _ hd'))
      fun d' hd' => hkept d' (List.mem_cons_of_mem _ hd')
    refine ⟨v' :: elems', .cons hv helems, fun clock => ?_⟩
    rw [Push.inlineResources, alone_bind (halone clock), alone_bind (halone' clock)]
    rfl

/-! The map of protected blobs. -/

omit [DecidableEq Client] [DecidableEq Hash] in
theorem get?_protectedBlobs {detached : List (SnapshotResource Bytes Hash)}
    (hnodup : (detached.map SnapshotResource.path).Nodup) (stored : List (String × Hash)) :
    (∀ d ∈ detached, get? (protectedBlobs detached stored) d.path = some d.hash) ∧
      ∀ path, path ∉ detached.map SnapshotResource.path →
        get? (protectedBlobs detached stored) path = get? stored path := by
  induction detached generalizing stored with
  | nil => exact ⟨fun _ hd => absurd hd List.not_mem_nil, fun _ _ => rfl⟩
  | cons d rest ih =>
    obtain ⟨hnew, hnodup⟩ := List.nodup_cons.mp hnodup
    obtain ⟨hin, hout⟩ := ih hnodup (SortedAssoc.insert d.path d.hash stored)
    rw [protectedBlobs_cons]
    refine ⟨fun d' hd' => ?_, fun path hpath => ?_⟩
    · rcases List.mem_cons.mp hd' with rfl | hd'
      · rw [hout _ hnew, get?_insert, if_pos rfl]
      · exact hin d' hd'
    · obtain ⟨hne, hpath⟩ := not_or.mp (fun h => hpath (List.mem_cons.mpr h))
      rw [hout path hpath, get?_insert, if_neg hne]

/-- Reading back a stash without resources. -/
theorem alone_stashedSnapshot_plain (h : Stashed F request [] s) :
    s.alone F clock push request (Push.stashedSnapshot F C) = (s, .ok (some request.snapshot)) := by
  obtain ⟨stash, hstash, hhash, hresources⟩ := h.stash
  have hget := h.snapshot
  rw [← hhash] at hget
  change s.alone F clock push request (match (s.sidecar request.client).stash with
    | none => pure none
    | some stash => _) = _
  rw [hstash]
  change s.alone F clock push request (ask (.getBlob stash.snapshot) "fetch stashed snapshot" >>= _) = _
  rw [alone_bind (alone_getBlob hget), hresources]
  rfl

end Alone

/-! Which resources are stashed. -/

/-- A DAWproject snapshot with resources outside it. -/
def HasDetached (F : Formats Bytes Hash) (C : Codecs Bytes Hash) (bytes : Bytes) : Prop :=
  ∃ v p, IsDawproject F C bytes v p ∧ ∃ r ∈ p.resources, r.data = none

section Detached
variable {C : Codecs Bytes Hash} {problems : Value → List IntegrityProblem}
variable {info : Value → Option Bytes} {limit : Nat}

omit [DecidableEq Client] [DecidableEq Hash] in
theorem IsDawproject.validated {bytes : Bytes} {v : Value} {p : PortableSnapshot Hash}
    (h : IsDawproject F C bytes v p) : p.validate C = .ok () := by
  obtain ⟨_, p', -, -, hp', hvalid⟩ := snapshotFormat_dawproject h.format
  obtain rfl : p = p' := Option.some.inj (h.portable.symm.trans hp')
  exact hvalid

omit [DecidableEq Client] [DecidableEq Hash] in
/-- The resources of a wrapper are read again from its text. -/
theorem needsHydration_iff {bytes : Bytes} {v : Value} {hydrates : Bool}
    (hv : F.decodeValue bytes = .ok v) :
    (kernelReaders F C problems info).needsHydration bytes = .ok hydrates ↔
      (∃ p, IsDawproject F C bytes v p ∧ hydrates = p.resources.any fun r => r.data.isNone) ∨
        (∃ format, snapshotFormat C v = .ok format ∧ format ≠ .dawproject ∧ hydrates = false) := by
  have hreads : (kernelReaders F C problems info).needsHydration bytes =
      (snapshotFormat C v >>= fun format =>
        if format = .dawproject then requiresResourceHydration F C ⟨format, bytes, []⟩
        else .ok false) := by
    change (parseJson F bytes >>= fun v => snapshotFormat C v >>= _) = _
    rw [parseJson_ok_iff.mpr hv]
    rfl
  rw [hreads]
  cases hformat : snapshotFormat C v with
  | error e =>
    refine ⟨fun h => (by cases h), ?_⟩
    rintro (⟨p, hp, -⟩ | ⟨_, hf, -⟩)
    · rw [hp.format] at hformat
      cases hformat
    · cases hf
  | ok format =>
    by_cases hdaw : format = .dawproject
    · subst hdaw
      obtain ⟨fields, p, -, -, hp, hvalid⟩ := snapshotFormat_dawproject hformat
      have hdoc : IsDawproject F C bytes v p := ⟨hv, hformat, hp⟩
      have hportable : ProjectSnapshot.portable F C ⟨.dawproject, bytes, []⟩ = .ok (some p) := by
        simp only [ProjectSnapshot.portable, reduceCtorEq, or_self, if_false]
        exact bind_ok_iff.mpr ⟨v, parseJson_ok_iff.mpr hv, bind_ok_iff.mpr
          ⟨p, serdeResult_ok_iff.mpr hp, bind_ok_iff.mpr ⟨(), hvalid, rfl⟩⟩⟩
      have hrequires : requiresResourceHydration F C ⟨.dawproject, bytes, []⟩ =
          .ok (p.resources.any fun r => r.data.isNone) := by
        refine bind_ok_iff.mpr ⟨p, ?_, rfl⟩
        simp only [dawprojectPortable, ne_eq, not_true_eq_false, if_false, hportable]
        rfl
      change requiresResourceHydration F C ⟨.dawproject, bytes, []⟩ = .ok hydrates ↔ _
      rw [hrequires]
      constructor
      · rintro ⟨⟩
        exact Or.inl ⟨p, hdoc, rfl⟩
      · rintro (⟨p', hp', rfl⟩ | ⟨_, hf, hne, -⟩)
        · obtain rfl : p = p' := Option.some.inj (hp.symm.trans hp'.portable)
          rfl
        · cases hf
          exact absurd rfl hne
    · change (if format = .dawproject then _ else Except.ok false) = _ ↔ _
      rw [if_neg hdaw]
      constructor
      · rintro ⟨⟩
        exact Or.inr ⟨format, rfl, hdaw, rfl⟩
      · rintro (⟨p, hp, -⟩ | ⟨_, -, -, rfl⟩)
        · rw [hp.format] at hformat
          cases hformat
          exact absurd rfl hdaw
        · rfl

omit [DecidableEq Client] [DecidableEq Hash] in
/-- What a stash stores of a snapshot. -/
theorem detachedOf_ok (hJ : F.ReadsBack limit)
    (h : Push.detachedOf F (kernelReaders F C problems info) request = .ok detached) :
    (HasDetached F C request.snapshot ∧
        ∃ v, F.decodeValue request.snapshot = .ok v ∧ snapshotResources F C v = .ok detached) ∨
      (¬ HasDetached F C request.snapshot ∧ detached = []) := by
  obtain ⟨canonical, hcanonical, h⟩ := bind_ok_iff.mp h
  obtain ⟨snapshot, hsnapshot, rfl⟩ := map_ok_iff.mp (wrapped_ok hcanonical)
  obtain ⟨v, hv, hsnapshot⟩ := bind_ok_iff.mp hsnapshot
  rw [parseJson_ok_iff] at hv
  obtain ⟨format, hformat, hsnapshot⟩ := bind_ok_iff.mp hsnapshot
  cases hsnapshot
  obtain ⟨w, hw, h⟩ := bind_ok_iff.mp h
  replace hw := wrapped_ok hw
  obtain ⟨hydrates, hhydrates, h⟩ := bind_ok_iff.mp h
  replace hhydrates := wrapped_ok hhydrates
  replace h := wrapped_ok h
  have hfloat : w.unfloat = v.unfloat := by
    obtain ⟨hwf, hdepth⟩ := hJ.decoded _ v hv
    obtain ⟨w', hw', heq⟩ := hJ.encoded v hwf hdepth
    cases hw.symm.trans hw'
    exact heq
  have hback : ∀ p, IsDawproject F C request.snapshot v p ↔ IsDawproject F C (F.encodeValue v) w p :=
    fun p => ⟨fun hp => hp.congr hw hfloat, fun hp => hp.congr hv hfloat.symm⟩
  have hdetached : HasDetached F C request.snapshot ↔ hydrates = true := by
    rcases (needsHydration_iff hw).mp hhydrates with ⟨p, hp, rfl⟩ | ⟨format', hf, hne, rfl⟩
    · rw [List.any_eq_true]
      constructor
      · rintro ⟨v', p', hp', r, hr, hnone⟩
        cases hv.symm.trans hp'.decoded
        obtain rfl : p = p' :=
          Option.some.inj (((hback p).mpr hp).portable.symm.trans hp'.portable)
        exact ⟨r, hr, by rw [hnone]; rfl⟩
      · rintro ⟨r, hr, hnone⟩
        exact ⟨v, p, (hback p).mpr hp, r, hr, Option.isNone_iff_eq_none.mp hnone⟩
    · refine ⟨?_, fun h => by cases h⟩
      rintro ⟨v', p', hp', -⟩
      cases hv.symm.trans hp'.decoded
      rw [((hback p').mp hp').format] at hf
      cases hf
      exact absurd rfl hne
  cases hydrates with
  | true =>
    refine Or.inl ⟨hdetached.mpr rfl, v, hv, ?_⟩
    rw [← snapshotResources_unfloat, ← hfloat, snapshotResources_unfloat]
    exact h
  | false =>
    cases h
    exact Or.inr ⟨fun hd => absurd (hdetached.mp hd) Bool.false_ne_true, rfl⟩

omit [DecidableEq Hash] in
/-- The stashed resources of a snapshot whose `metadata` is not spelled out as absent. -/
theorem stashed_detached {v : Value} {p : PortableSnapshot Hash} {bytes : Bytes}
    (hdoc : IsDawproject F C bytes v p) (hmetadata : v.get "metadata" ≠ some .null)
    (hsome : ∃ r ∈ p.resources, r.data = none) (h : snapshotResources F C v = .ok detached) :
    p.auruPmSnapshot = 2 ∧ ∃ fields elems, v = .object fields ∧
      get? fields "resources" = some (.array elems) ∧
      List.Forall₂ (DetachedAt C) elems detached ∧ detached ≠ [] ∧
      (detached.map SnapshotResource.path).Nodup ∧
      ∀ r ∈ p.resources, ∃ d ∈ detached, r.id = d.path ∧ r.hash = some d.hash ∧
        r.size = some d.size := by
  obtain ⟨fields, p', rfl, hformat, hp', hvalid⟩ := snapshotFormat_dawproject hdoc.format
  obtain rfl : p = p' := Option.some.inj (hdoc.portable.symm.trans hp')
  obtain ⟨⟨hlow, hhigh⟩, -, -, -, hresources⟩ := PortableSnapshot.validate_ok_iff.mp hvalid
  obtain ⟨hall, hnodup⟩ := validateResources_ok_iff.mp hresources
  obtain ⟨r₀, hr₀, hnone⟩ := hsome
  have hversion : p.auruPmSnapshot = 2 := by
    by_contra hne
    have hone : p.auruPmSnapshot = 1 := by omega
    have hdata := (hall r₀ hr₀).2.2
    rw [hone, ArchiveResource.validate_one_iff, hnone] at hdata
    cases hdata
  have htwo : ∀ r ∈ p.resources, r.data = none ∧ r.hash.isSome = true ∧ r.size.isSome = true := by
    intro r hr
    have hvalid := (hall r hr).2.2
    rwa [hversion, ArchiveResource.validate_two_iff] at hvalid
  obtain ⟨-, hdaw, -, -, hread⟩ := readPortable_object_iff.mp hp'
  rw [hformat] at hdaw
  have hparts : ¬ (snapshotParts (.object fields)).isNone = true := fun hn =>
    hmetadata ((snapshotParts_isNone_iff hp' (Option.some.inj hdaw).symm).mp hn)
  cases hfield : get? fields "resources" with
  | none =>
    rw [hfield] at hread
    have hempty : p.resources = [] := (Option.some.inj hread).symm
    rw [hempty] at hr₀
    cases hr₀
  | some array =>
    rw [hfield] at hread
    cases array with
    | array elems =>
      unfold snapshotResources at h
      rw [if_neg hparts] at h
      simp only [Value.get, hfield, Option.bind_some, Value.asArray, Option.getD_some] at h
      obtain ⟨hdetached, hpaths, hdescribed⟩ :=
        forall₂_detachedAt (mapM_some_iff.mp hread) (mapM_ok_iff.mp h) htwo
      refine ⟨hversion, fields, elems, rfl, hfield, hdetached, ?_, hpaths ▸ hnodup, hdescribed⟩
      rintro rfl
      obtain ⟨d, hd, -⟩ := hdescribed r₀ hr₀
      cases hd
    | _ => cases hread

/-! Recovery. -/

/-- Text that restores on its own to what the local snapshot and its resources restore to, with
the bytes of the resources in it. -/
def SameWork (F : Formats Bytes Hash) (C : Codecs Bytes Hash)
    (request : PushRequest Client Bytes Hash) (bytes : Bytes) : Prop :=
  ∃ v p w archive, IsDawproject F C request.snapshot v p ∧
    IsDawproject F C bytes w (p.inlined C request.snapshotResources) ∧
    restored F C request.snapshot request.snapshotResources = .ok archive ∧
    restored F C bytes [] = .ok archive

/-- `stashedSnapshot` gives the local work back: the same bytes, or the same project with its
resources inlined. -/
def Recovers (F : Formats Bytes Hash) (C : Codecs Bytes Hash) (push : Nat)
    (request : PushRequest Client Bytes Hash) (s : Shared Client Bytes Hash) : Prop :=
  ∃ bytes,
    (∀ clock, (s.alone F clock push request (Push.stashedSnapshot F C)).2 = .ok (some bytes)) ∧
    (HasDetached F C request.snapshot → SameWork F C request bytes) ∧
    (¬ HasDetached F C request.snapshot → bytes = request.snapshot)

/-- A snapshot without detached resources; or one that restores, and whose `metadata` is not
spelled out as absent. -/
def Recoverable (F : Formats Bytes Hash) (C : Codecs Bytes Hash)
    (request : PushRequest Client Bytes Hash) : Prop :=
  HasDetached F C request.snapshot →
    (∀ v, F.decodeValue request.snapshot = .ok v → v.get "metadata" ≠ some .null) ∧
    ∃ archive, restored F C request.snapshot request.snapshotResources = .ok archive

/-- The detached resources are inlined. -/
theorem alone_stashedSnapshot_detached (hJ : F.ReadsBack limit)
    (hbase : ∀ e ∈ request.snapshotResources, C.base64Decode (C.base64Encode e.2) = .ok e.2)
    {v : Value} {p : PortableSnapshot Hash} (hdoc : IsDawproject F C request.snapshot v p)
    (hmetadata : v.get "metadata" ≠ some .null) (hsome : ∃ r ∈ p.resources, r.data = none)
    {archive : Bytes} (harchive : restored F C request.snapshot request.snapshotResources = .ok archive)
    (hdetached : snapshotResources F C v = .ok detached) (h : Stashed F request detached s) :
    ∃ bytes w,
      (∀ clock, s.alone F clock push request (Push.stashedSnapshot F C) = (s, .ok (some bytes))) ∧
      IsDawproject F C bytes w (p.inlined C request.snapshotResources) ∧
      restored F C bytes [] = .ok archive := by
  obtain ⟨-, fields, elems, rfl, hfield, hat, hne, hnodup, hdescribed⟩ :=
    stashed_detached hdoc hmetadata hsome hdetached
  obtain ⟨stash, hstash, hhash, hresources⟩ := h.stash
  have hget := h.snapshot
  rw [← hhash] at hget
  obtain ⟨hin, -⟩ := get?_protectedBlobs hnodup ([] : List (String × Hash))
  obtain ⟨elems', hinlines, helems⟩ : ∃ elems',
      List.Forall₂ (Inlines C request.snapshotResources) elems elems' ∧ ∀ clock,
        s.alone F clock push request
          (Push.inlineResources F C (protectedBlobs detached []) elems) = (s, .ok elems') :=
    alone_inlineResources hat hin h.resources
  obtain ⟨w, hw⟩ := recovered_isDawproject hJ hdoc hfield hinlines
  obtain ⟨w', hw'⟩ := hw.reencoded hJ
  have hgiven : ∀ r ∈ p.resources, ∃ bytes, get? request.snapshotResources r.id = some bytes ∧
      r.hash = some (F.contentHash bytes) ∧ r.size = some (F.byteLength bytes) ∧
      C.base64Decode (C.base64Encode bytes) = .ok bytes := by
    intro r hr
    obtain ⟨d, hd, hid, hhash, hsize⟩ := hdescribed r hr
    obtain ⟨bytes, hgiven, hhash', hsize', -⟩ := h.resources d hd
    exact ⟨bytes, hid ▸ hgiven, hhash' ▸ hhash, hsize' ▸ hsize, hbase _ (mem_of_get? hgiven)⟩
  have hdecode : decodeDawproject F C (p.inlined C request.snapshotResources) [] = .ok archive := by
    rw [decodeDawproject_inlined hgiven, ← hdoc.restored hJ, harchive]
  have hfull : stash.resources.isEmpty = false := by
    obtain ⟨d, hd⟩ := List.exists_mem_of_ne_nil detached hne
    have hmem := mem_of_get? (hin d hd)
    rw [← hresources] at hmem
    cases hstored : stash.resources with
    | nil =>
      rw [hstored] at hmem
      cases hmem
    | cons e rest => rfl
  refine ⟨F.encodeValue w, w', fun clock => ?_, hw', (hw'.restored hJ []).trans hdecode⟩
  change s.alone F clock push request (match (s.sidecar request.client).stash with
    | none => pure none
    | some stash => _) = _
  rw [hstash]
  change s.alone F clock push request (ask (.getBlob stash.snapshot) "fetch stashed snapshot" >>= _) = _
  rw [alone_bind (alone_getBlob hget), hfull, hresources]
  simp only [Bool.false_eq_true, if_false, Push.inlineStash, hdoc.fromCanonicalBytes, wrapped,
    Prog.ofExcept, Prog.done_bind, ne_eq, not_true_eq_false, hdoc.decoded, hfield, Option.bind_some,
    Value.asArray]
  rw [alone_bind (helems clock)]
  simp only [hw.fromCanonicalBytes, Prog.done_bind, hw'.restoreBytes [], hdecode]
  rfl

/-- Without detached resources the stash is the snapshot itself. -/
theorem recovers_plain (hnot : ¬ HasDetached F C request.snapshot) (h : Stashed F request [] s) :
    Recovers F C push request s := by
  refine ⟨request.snapshot, fun clock => ?_, fun hhas => absurd hhas hnot, fun _ => rfl⟩
  rw [alone_stashedSnapshot_plain h]

theorem recovers_detached (hJ : F.ReadsBack limit)
    (hbase : ∀ e ∈ request.snapshotResources, C.base64Decode (C.base64Encode e.2) = .ok e.2)
    (hhas : HasDetached F C request.snapshot) (hre : Recoverable F C request) {v : Value}
    (hv : F.decodeValue request.snapshot = .ok v) (hdetached : snapshotResources F C v = .ok detached)
    (h : Stashed F request detached s) : Recovers F C push request s := by
  obtain ⟨hmetadata, archive, harchive⟩ := hre hhas
  have hfound := hhas
  obtain ⟨v', p, hdoc, hsome⟩ := hfound
  cases hv.symm.trans hdoc.decoded
  obtain ⟨bytes, w, halone, hw, hrestored⟩ : ∃ bytes w, (∀ clock,
      s.alone F clock push request (Push.stashedSnapshot F C) = (s, .ok (some bytes))) ∧
      IsDawproject F C bytes w (p.inlined C request.snapshotResources) ∧
      restored F C bytes [] = .ok archive :=
    alone_stashedSnapshot_detached hJ hbase hdoc (hmetadata v hv) hsome harchive hdetached h
  refine ⟨bytes, fun clock => ?_, fun _ => ⟨v, p, w, archive, hdoc, hw, harchive, hrestored⟩,
    fun hnot => absurd hhas hnot⟩
  rw [halone clock]

omit [DecidableEq Hash] in
/-- A wrapper with detached resources is in version two. -/
theorem ne_inlined {bytes : Bytes} {v : Value} {p : PortableSnapshot Hash}
    (hdoc : IsDawproject F C bytes v p) (hsome : ∃ r ∈ p.resources, r.data = none)
    (given : List (String × Bytes)) (q : PortableSnapshot Hash) : p ≠ q.inlined C given := by
  intro heq
  obtain ⟨r, hr, hnone⟩ := hsome
  obtain ⟨-, -, -, -, hresources⟩ := PortableSnapshot.validate_ok_iff.mp hdoc.validated
  have hdata := ((validateResources_ok_iff.mp hresources).1 r hr).2.2
  rw [heq] at hdata
  replace hdata := ArchiveResource.validate_one_iff.mp hdata
  rw [hnone] at hdata
  cases hdata

theorem Recovers.recoverable (hhas : HasDetached F C request.snapshot) {v : Value}
    (hv : F.decodeValue request.snapshot = .ok v) (hdetached : snapshotResources F C v = .ok detached)
    (h : Stashed F request detached s) (hr : Recovers F C push request s) :
    Recoverable F C request := by
  obtain ⟨bytes, halone, hsame, -⟩ := hr
  obtain ⟨v', p, w, archive, hdoc, hw, harchive, -⟩ := hsame hhas
  cases hv.symm.trans hdoc.decoded
  refine fun _ => ⟨fun v' hv' hnull => ?_, archive, harchive⟩
  cases hv.symm.trans hv'
  obtain ⟨v', p', hdoc', hsome⟩ := hhas
  cases hv.symm.trans hdoc'.decoded
  -- an absent document that is spelled out hides the resources from the stash
  obtain ⟨fields, p₀, rfl, hformat, hp₀, -⟩ := snapshotFormat_dawproject hdoc'.format
  obtain rfl : p' = p₀ := Option.some.inj (hdoc'.portable.symm.trans hp₀)
  obtain ⟨-, hdaw, -, -, -⟩ := readPortable_object_iff.mp hp₀
  rw [hformat] at hdaw
  have hparts := (snapshotParts_isNone_iff hp₀ (Option.some.inj hdaw).symm).mpr hnull
  rw [snapshotResources, if_pos hparts] at hdetached
  cases hdetached
  have hbytes := halone 0
  rw [alone_stashedSnapshot_plain h] at hbytes
  obtain rfl : request.snapshot = bytes := Option.some.inj (Except.ok.inj hbytes)
  cases hv.symm.trans hw.decoded
  exact ne_inlined hdoc' hsome _ p (Option.some.inj (hdoc'.portable.symm.trans hw.portable))

theorem PastStash.recoverable (hF : F.Lawful) (hJ : F.ReadsBack limit)
    {result : Except String (PushOutcome Hash)}
    (hrun : Run F (kernelReaders F C problems info) anything s)
    (h : PastStash F (kernelReaders F C problems info) push request s s' result)
    (hresult : ∀ id wasMerge mirrors unavailable,
      result ≠ .ok (.committed id wasMerge mirrors unavailable))
    (hr : Recovers F C push request s') : Recoverable F C request := by
  have hsound := (Run.invariant (settled_outline hF _ anything) settled_start hrun).sound
  obtain ⟨detached, hdetached, hstashed⟩ := h.stashed hF hsound.blobs hresult
  rcases detachedOf_ok hJ hdetached with ⟨hhas, v, hv, hresources⟩ | ⟨hnot, rfl⟩
  · exact Recovers.recoverable hhas hv hresources hstashed hr
  · exact fun hhas => absurd hhas hnot

theorem PastStash.recovers (hF : F.Lawful) (hJ : F.ReadsBack limit)
    (hbase : ∀ e ∈ request.snapshotResources, C.base64Decode (C.base64Encode e.2) = .ok e.2)
    {result : Except String (PushOutcome Hash)}
    (hrun : Run F (kernelReaders F C problems info) anything s)
    (h : PastStash F (kernelReaders F C problems info) push request s s' result)
    (hresult : ∀ id wasMerge mirrors unavailable,
      result ≠ .ok (.committed id wasMerge mirrors unavailable))
    (hre : Recoverable F C request) : Recovers F C push request s' := by
  have hsound := (Run.invariant (settled_outline hF _ anything) settled_start hrun).sound
  obtain ⟨detached, hdetached, hstashed⟩ := h.stashed hF hsound.blobs hresult
  rcases detachedOf_ok hJ hdetached with ⟨hhas, v, hv, hresources⟩ | ⟨hnot, rfl⟩
  · exact recovers_detached hJ hbase hhas hre hv hresources hstashed
  · exact recovers_plain hnot hstashed

/-- Pre-merge work can be recovered from a push that commits nothing just when it has no detached
resources, or restores and does not spell out that it has no metadata. -/
theorem stash_recovers_iff (hF : F.Lawful) (hJ : F.ReadsBack limit)
    (hbase : ∀ e ∈ request.snapshotResources, C.base64Decode (C.base64Encode e.2) = .ok e.2)
    {result : Except String (PushOutcome Hash)}
    (hrun : Run F (kernelReaders F C problems info) anything s)
    (h : PastStash F (kernelReaders F C problems info) push request s s' result)
    (hresult : ∀ id wasMerge mirrors unavailable,
      result ≠ .ok (.committed id wasMerge mirrors unavailable)) :
    Recovers F C push request s' ↔ Recoverable F C request :=
  ⟨h.recoverable hF hJ hrun hresult, h.recovers hF hJ hbase hrun hresult⟩

end Detached

end Stashing

/-! A song with a take. -/

/-- A DAWproject of this name with one take, and with these fields for its metadata. -/
def dawSong (name : String) (metadata : List (String × Value)) : Value :=
  .object ([("auru_pm_snapshot", .number (.posInt 2)), ("format", .string "dawproject")] ++
    metadata ++
    [("project", .object [("root",
        .object [("attributes", .object [("name", .string name)]), ("tag", .string "Project")])]),
      ("resources", .array [.object [("hash", .string "take"), ("id", .string "audio/take.wav"),
        ("size", .number (.posInt 0))]])])

def dawPush (client : Nat) (document : Value) : PushRequest Nat Term Term :=
  { pushOf client document with snapshotResources := [("audio/take.wav", .text "take")] }

/-- The first client pushes twice, and the second one has restored the first version. -/
def dawDiverged (metadata : List (String × Value)) : Shared Nat Term Term :=
  let s : Shared Nat Term Term :=
    Shared.start.pushAlone symbolicJson dawReaders 1 0 (dawPush 0 (dawSong "A" metadata))
  (s.save 1 (restoredAt s)).pushAlone symbolicJson dawReaders 2 1 (dawPush 0 (dawSong "B" metadata))

theorem dawDiverged_run (metadata : List (String × Value)) :
    Run symbolicJson dawReaders anything (dawDiverged metadata) := by
  have hmay : ∀ (s : Shared Nat Term Term) c, anything.Allow s c := fun _ c => by
    cases c <;> trivial
  exact (((RunOf.start.push hmay 1 _).restore 1 _ trivial).push hmay 2 _).run

/-- The second client's push, which finds a conflict. -/
def dawConflict (metadata : List (String × Value)) : PushRequest Nat Term Term :=
  dawPush 1 (dawSong "C" metadata)

theorem dawConflict_pastStash {metadata : List (String × Value)}
    (h : (playPastStash symbolicJson dawReaders 3 2 (dawConflict metadata)
      (dawDiverged metadata)).any (fun r => (r.2.toOption.map PushOutcome.isCommitted) = some false) = true) :
    ∃ s' result, PastStash symbolicJson dawReaders 2 (dawConflict metadata) (dawDiverged metadata) s'
      result ∧ ∀ id wasMerge mirrors unavailable,
        result ≠ .ok (.committed id wasMerge mirrors unavailable) := by
  obtain ⟨⟨s', result⟩, hplay, hopen⟩ := (Option.any_eq_true _ _).mp h
  refine ⟨s', result, pastStash_of_play hplay, ?_⟩
  rintro id wasMerge mirrors unavailable rfl
  cases of_decide_eq_true hopen

theorem dawSong_hasDetached {name : String} {metadata : List (String × Value)}
    (hv : symbolicJson.decodeValue (.value (dawSong name metadata)) = .ok (dawSong name metadata))
    (hformat : (snapshotFormat symbolicCodecs (dawSong name metadata)).toOption = some .dawproject)
    (hany : ((readPortable symbolicCodecs (dawSong name metadata)).any fun p =>
      p.resources.any fun r => r.data.isNone) = true) :
    HasDetached symbolicJson symbolicCodecs (.value (dawSong name metadata)) := by
  obtain ⟨p, hp, hany⟩ := (Option.any_eq_true _ _).mp hany
  obtain ⟨r, hr, hnone⟩ := List.any_eq_true.mp hany
  refine ⟨_, p, ⟨hv, ?_, hp⟩, r, hr, Option.isNone_iff_eq_none.mp hnone⟩
  cases hf : snapshotFormat symbolicCodecs (dawSong name metadata) with
  | error e =>
    rw [hf] at hformat
    cases hformat
  | ok format =>
    rw [hf] at hformat
    exact congrArg _ (Option.some.inj hformat)

/-- No metadata, spelled out. -/
def noMetadata : List (String × Value) := [("metadata", .null)]

/-- A song that spells out that it has no metadata is stashed without its take. -/
theorem stash_loses_take : ∃ (s' : Shared Nat Term Term) (result : Except String (PushOutcome Term)),
    Run symbolicJson dawReaders anything (dawDiverged noMetadata) ∧
    PastStash symbolicJson dawReaders 2 (dawConflict noMetadata) (dawDiverged noMetadata) s' result ∧
    (∀ id wasMerge mirrors unavailable,
      result ≠ .ok (.committed id wasMerge mirrors unavailable)) ∧
    (∃ archive, restored symbolicJson symbolicCodecs (dawConflict noMetadata).snapshot
      (dawConflict noMetadata).snapshotResources = .ok archive) ∧
    ¬ Recovers symbolicJson symbolicCodecs 2 (dawConflict noMetadata) s' := by
  obtain ⟨s', result, hpast, hresult⟩ : ∃ s' result, PastStash symbolicJson dawReaders 2
      (dawConflict noMetadata) (dawDiverged noMetadata) s' result ∧
      ∀ id wasMerge mirrors unavailable,
        result ≠ .ok (.committed id wasMerge mirrors unavailable) :=
    dawConflict_pastStash (by decide +kernel)
  have hrun := dawDiverged_run noMetadata
  have hhas : HasDetached symbolicJson symbolicCodecs (dawConflict noMetadata).snapshot :=
    dawSong_hasDetached rfl (by decide +kernel) (by decide +kernel)
  refine ⟨s', result, hrun, hpast, hresult, ⟨_, rfl⟩, fun hr => ?_⟩
  have hre := hpast.recoverable symbolicJson_lawful symbolicJson_readsBack hrun hresult hr
  exact (hre hhas).1 _ rfl rfl

/-- A song without a `metadata` field is recovered with its take. -/
theorem stash_recovers_song : ∃ (s' : Shared Nat Term Term),
    HasDetached symbolicJson symbolicCodecs (dawConflict []).snapshot ∧
    Recovers symbolicJson symbolicCodecs 2 (dawConflict []) s' := by
  obtain ⟨s', result, hpast, hresult⟩ : ∃ s' result, PastStash symbolicJson dawReaders 2
      (dawConflict []) (dawDiverged []) s' result ∧ ∀ id wasMerge mirrors unavailable,
        result ≠ .ok (.committed id wasMerge mirrors unavailable) :=
    dawConflict_pastStash (by decide +kernel)
  refine ⟨s', dawSong_hasDetached rfl (by decide +kernel) (by decide +kernel), ?_⟩
  refine (stash_recovers_iff symbolicJson_lawful symbolicJson_readsBack (fun e he => ?_)
    (dawDiverged_run []) hpast hresult).mpr fun _ => ⟨fun v hv hnull => ?_, _, rfl⟩
  · rcases List.mem_singleton.mp he with rfl
    rfl
  · cases hv
    cases hnull

end AuruPm
