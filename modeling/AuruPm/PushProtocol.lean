import AuruPm.Push

/-!
# The protocol of a push

A push goes through few phases: it sees `HEAD`, works on what to commit, has stored the commit,
has advanced `HEAD`. A phase keeps what was read and stored so far. `pushWithOptions` keeps to
this protocol whatever it is answered, so runs of pushes can be reasoned about by their phases.
-/

namespace AuruPm

set_option autoImplicit false

open SortedAssoc Threads

variable {Client Bytes Hash : Type}

/-- What a push knows while it works. -/
structure Working (Bytes Hash : Type) where
  /-- `HEAD` as the push saw it. -/
  remoteHead : Option Hash
  /-- `local_head` of the sidecar it loaded first. -/
  localHead : Option Hash
  /-- The sidecar it loaded last. -/
  sidecar : Sidecar Hash
  /-- The commits it read. -/
  commits : List (Hash × Commit Hash)
  /-- The blobs it read or stored. -/
  blobs : List (Hash × Bytes)

inductive Phase (Bytes Hash : Type) where
  | started
  | sawHead (remoteHead : Option Hash)
  | working (w : Working Bytes Hash)
  | stored (w : Working Bytes Hash) (commit : Commit Hash)
  | advanced (w : Working Bytes Hash) (commit : Commit Hash)

/-- The snapshot a commit points at, as a document ready for a merge. -/
def Working.Reads (F : Formats Bytes Hash) (R : Readers Bytes Hash) (w : Working Bytes Hash)
    (id : Hash) (v : Value) : Prop :=
  ∃ commit bytes raw blobs, (id, commit) ∈ w.commits ∧ (commit.tree.snapshot, bytes) ∈ w.blobs ∧
    F.decodeValue bytes = .ok raw ∧ Push.normalized F R raw = .ok (v, blobs)

/-- What a push may commit, by what it has read. -/
inductive Decides (F : Formats Bytes Hash) (R : Readers Bytes Hash)
    (request : PushRequest Client Bytes Hash) (w : Working Bytes Hash) :
    Push.Prepared Bytes Hash → Prop
  | fastForward (h : w.remoteHead = w.localHead) :
      Decides F R request w ⟨request.snapshot, w.localHead.toList, false, w.localHead⟩
  | first (hl : w.localHead = none) (hr : w.remoteHead ≠ none) :
      Decides F R request w ⟨request.snapshot, [], false, none⟩
  | merge {localId remoteId : Hash} {ancestor raw current remote merged : Value}
      {blobs : List (String × Hash × Bytes)}
      (hl : w.localHead = some localId) (hr : w.remoteHead = some remoteId)
      (hne : remoteId ≠ localId) (ha : w.Reads F R localId ancestor)
      (hraw : F.decodeValue request.snapshot = .ok raw)
      (hc : Push.normalized F R raw = .ok (current, blobs)) (hrem : w.Reads F R remoteId remote)
      (hm : Push.mergeAll F R request ancestor current remote = .ok (.value merged)) :
      Decides F R request w ⟨F.encodeValue merged, [localId, remoteId], true, some remoteId⟩

/-- A commit of what was decided, whose manifest is among the blobs. -/
def Builds (F : Formats Bytes Hash) (R : Readers Bytes Hash)
    (request : PushRequest Client Bytes Hash) (w : Working Bytes Hash) (fromHead : Option Hash)
    (commit : Commit Hash) : Prop :=
  ∃ prepared manifest bytes, Decides F R request w prepared ∧ prepared.fromHead = fromHead ∧
    commit.parents = prepared.parents ∧ commit.tree.snapshot = F.contentHash prepared.snapshot ∧
    (commit.tree.snapshot, prepared.snapshot) ∈ w.blobs ∧
    F.encodeManifest manifest = .ok bytes ∧ (commit.tree.samples, bytes) ∈ w.blobs ∧ commit.InRange

/-- The calls that a phase allows. -/
def Phase.Allows (F : Formats Bytes Hash) (R : Readers Bytes Hash)
    (request : PushRequest Client Bytes Hash) : Phase Bytes Hash → Call Bytes Hash → Prop
  | .started, .getHead => True
  | .sawHead _, .loadSidecar => True
  | .working _, .now => True
  | .working _, .loadSidecar => True
  | .working w, .saveSidecar sidecar => sidecar.localHead = w.sidecar.localHead
  | .working _, .putBlob _ _ => True
  | .working _, .getBlob _ => True
  | .working _, .getCommit _ => True
  | .working w, .putCommit commit => ∃ fromHead, Builds F R request w fromHead commit
  | .stored w commit, .advanceHead fromHead toHead =>
    toHead = commit.id ∧ Builds F R request w fromHead commit
  | .advanced _ _, .now => True
  | .advanced _ _, .loadSidecar => True
  | .advanced _ commit, .saveSidecar sidecar => sidecar.localHead = some commit.id
  | _, _ => False

/-- Where an answer takes a push. -/
def Phase.next : Phase Bytes Hash → (c : Call Bytes Hash) → c.Answer → Phase Bytes Hash
  | .started, .getHead, remoteHead => .sawHead remoteHead
  | .sawHead remoteHead, .loadSidecar, sidecar =>
    .working ⟨remoteHead, sidecar.localHead, sidecar, [], []⟩
  | .working w, .loadSidecar, sidecar => .working { w with sidecar := sidecar }
  | .working w, .putBlob hash bytes, _ => .working { w with blobs := (hash, bytes) :: w.blobs }
  | .working w, .getBlob hash, bytes => .working { w with blobs := (hash, bytes) :: w.blobs }
  | .working w, .getCommit id, commit =>
    .working { w with commits := (id, commit) :: w.commits }
  | .working w, .putCommit commit, _ => .stored w commit
  | .stored w commit, .advanceHead _ _, .advanced => .advanced w commit
  | phase, _, _ => phase

/-- Outcomes of a push that commits nothing. -/
def PushOutcome.Stops : PushOutcome Hash → Prop
  | .committed _ _ _ _ => False
  | _ => True

/-- What a push may report. -/
def Phase.Ends : Phase Bytes Hash → PushOutcome Hash → Prop
  | .working _, outcome => outcome.Stops
  | .advanced _ commit, outcome =>
    ∃ wasMerge mirrors unavailable, outcome = .committed commit.id wasMerge mirrors unavailable
  | _, _ => False

abbrev Keeps {α : Type} (F : Formats Bytes Hash) (R : Readers Bytes Hash)
    (request : PushRequest Client Bytes Hash) (ends : Phase Bytes Hash → α → Prop)
    (x : Push Bytes Hash α) (phase : Phase Bytes Hash) : Prop :=
  Follows Phase.next (Phase.Allows F R request) ends x phase

/-- Later in the same working phase: the same heads, and more read and stored. -/
structure Working.Later (w w' : Working Bytes Hash) : Prop where
  remoteHead : w'.remoteHead = w.remoteHead
  localHead : w'.localHead = w.localHead
  commits : ∀ e ∈ w.commits, e ∈ w'.commits
  blobs : ∀ e ∈ w.blobs, e ∈ w'.blobs

def Phase.Continues {α : Type} (w : Working Bytes Hash) (post : Working Bytes Hash → α → Prop) :
    Phase Bytes Hash → α → Prop
  | .working w', a => w.Later w' ∧ post w' a
  | _, _ => False

theorem Working.Later.refl (w : Working Bytes Hash) : w.Later w :=
  ⟨rfl, rfl, fun _ h => h, fun _ h => h⟩

theorem Working.Later.trans {w w' w'' : Working Bytes Hash} (h : w.Later w') (h' : w'.Later w'') :
    w.Later w'' :=
  ⟨h'.remoteHead.trans h.remoteHead, h'.localHead.trans h.localHead,
    fun e he => h'.commits e (h.commits e he), fun e he => h'.blobs e (h.blobs e he)⟩

section Rules
variable {F : Formats Bytes Hash} {R : Readers Bytes Hash} {request : PushRequest Client Bytes Hash}
variable {α β : Type} {w : Working Bytes Hash} {ends : Phase Bytes Hash → β → Prop}

theorem Working.Reads.later {w w' : Working Bytes Hash} (h : w.Later w') {id : Hash} {v : Value}
    (hr : w.Reads F R id v) : w'.Reads F R id v := by
  obtain ⟨commit, bytes, raw, blobs, hc, hb, hd, hn⟩ := hr
  exact ⟨commit, bytes, raw, blobs, h.commits _ hc, h.blobs _ hb, hd, hn⟩

theorem Decides.later {w w' : Working Bytes Hash} (h : w.Later w')
    {prepared : Push.Prepared Bytes Hash} (hd : Decides F R request w prepared) :
    Decides F R request w' prepared := by
  cases hd with
  | fastForward heq =>
    rw [← h.localHead]
    exact .fastForward (by rw [h.remoteHead, h.localHead, heq])
  | first hl hr => exact .first (h.localHead.trans hl) (h.remoteHead ▸ hr)
  | merge hl hr hne ha hraw hc hrem hm =>
    exact .merge (h.localHead.trans hl) (h.remoteHead.trans hr) hne (ha.later h) hraw hc
      (hrem.later h) hm

theorem keeps_bind {mid : Working Bytes Hash → α → Prop} {x : Push Bytes Hash α}
    {f : α → Push Bytes Hash β} (hx : Keeps F R request (Phase.Continues w mid) x (.working w))
    (hf : ∀ w' a, w.Later w' → mid w' a → Keeps F R request ends (f a) (.working w')) :
    Keeps F R request ends (x >>= f) (.working w) := by
  refine Follows.bind hx fun phase a h => ?_
  cases phase with
  | working w' => exact hf w' a h.1 h.2
  | started => exact absurd h id
  | sawHead => exact absurd h id
  | stored => exact absurd h id
  | advanced => exact absurd h id

/-- A program that goes on in a later working phase ends in one. -/
theorem Keeps.later {post : Working Bytes Hash → α → Prop} {x : Push Bytes Hash α}
    {w w' : Working Bytes Hash} (h : w.Later w')
    (hx : Keeps F R request (Phase.Continues w' post) x (.working w')) :
    Keeps F R request (Phase.Continues w post) x (.working w') := by
  refine Follows.weaken hx fun phase a hc => ?_
  cases phase with
  | working w'' => exact ⟨h.trans hc.1, hc.2⟩
  | started => exact absurd hc id
  | sawHead => exact absurd hc id
  | stored => exact absurd hc id
  | advanced => exact absurd hc id

theorem keeps_pure {post : Working Bytes Hash → α → Prop} {a : α} (h : post w a) :
    Keeps F R request (Phase.Continues w post) (pure a) (.working w) :=
  ⟨.refl w, h⟩

theorem keeps_putBlob {hash : Hash} {bytes : Bytes} {what : String} {f : Unit → Push Bytes Hash β}
    (hf : Keeps F R request ends (f ()) (.working { w with blobs := (hash, bytes) :: w.blobs })) :
    Keeps F R request ends (ask (.putBlob hash bytes) what >>= f) (.working w) :=
  Follows.run_bind trivial fun _ => hf

theorem keeps_getBlob {hash : Hash} {explain : Error → String} {f : Bytes → Push Bytes Hash β}
    (hf : ∀ bytes, Keeps F R request ends (f bytes)
      (.working { w with blobs := (hash, bytes) :: w.blobs })) :
    Keeps F R request ends (Prog.run (.getBlob hash) explain >>= f) (.working w) :=
  Follows.run_bind trivial hf

theorem keeps_getCommit {id : Hash} {what : String} {f : Commit Hash → Push Bytes Hash β}
    (hf : ∀ commit, Keeps F R request ends (f commit)
      (.working { w with commits := (id, commit) :: w.commits })) :
    Keeps F R request ends (ask (.getCommit id) what >>= f) (.working w) :=
  Follows.run_bind trivial hf

theorem keeps_ofExcept {x : Except String α} {f : α → Push Bytes Hash β} {phase : Phase Bytes Hash}
    (hf : ∀ a, x = .ok a → Keeps F R request ends (f a) phase) :
    Keeps F R request ends (Prog.ofExcept x >>= f) phase :=
  Follows.ofExcept_bind hf

theorem later_blob (w : Working Bytes Hash) (e : Hash × Bytes) :
    w.Later { w with blobs := e :: w.blobs } :=
  ⟨rfl, rfl, fun _ h => h, fun _ h => List.mem_cons_of_mem _ h⟩

theorem later_sidecar (w : Working Bytes Hash) (sidecar : Sidecar Hash) :
    w.Later { w with sidecar := sidecar } :=
  ⟨rfl, rfl, fun _ h => h, fun _ h => h⟩

/-! The merging branch. -/

theorem keeps_modifySidecar {what : String} {f : Clock → Sidecar Hash → Sidecar Hash}
    (hf : ∀ now sidecar, (f now sidecar).localHead = sidecar.localHead) :
    Keeps F R request (Phase.Continues w fun _ _ => True) (Push.modifySidecar what f)
      (.working w) :=
  Follows.run_bind trivial fun sidecar => Follows.run_bind trivial fun now =>
    ⟨hf now sidecar, fun _ => ⟨later_sidecar w sidecar, trivial⟩, fun _ => trivial⟩

theorem keeps_storeLegacy {blobs : List (String × Hash × Bytes)} :
    Keeps F R request (Phase.Continues w fun _ _ => True) (Push.storeLegacy blobs)
      (.working w) := by
  induction blobs generalizing w with
  | nil => exact keeps_pure trivial
  | cons blob rest ih => exact keeps_putBlob (Keeps.later (later_blob w _) ih)

theorem keeps_normalizeForMerge {raw : Value} :
    Keeps F R request
      (Phase.Continues w fun _ v => ∃ blobs, Push.normalized F R raw = .ok (v, blobs))
      (Push.normalizeForMerge F R raw) (.working w) := by
  refine keeps_ofExcept fun out hout => ?_
  refine keeps_bind keeps_storeLegacy fun w' _ hl _ => ?_
  exact ⟨hl, out.2, hout⟩

theorem mergeAll_stops {ancestor current remote : Value} {outcome : PushOutcome Hash}
    (h : Push.mergeAll F R request ancestor current remote = .ok (.stopped outcome)) :
    outcome.Stops := by
  have hreviewed : ∀ merged, Push.reviewed F R request merged = .stopped outcome →
      outcome.Stops := by
    intro merged hr
    unfold Push.reviewed at hr
    simp only at hr
    split at hr
    · cases hr
      trivial
    · cases hr
  unfold Push.mergeAll at h
  split at h
  · split at h
    · cases h
      trivial
    · split at h
      · cases h
        trivial
      · simp only [bind_ok_iff, pure, Except.pure, Except.ok.injEq] at h
        obtain ⟨merged, -, hr⟩ := h
        exact hreviewed merged hr
  · exact hreviewed _ (Except.ok.inj h)

/-- What is ready was decided, and a push that stops commits nothing. -/
def Settles (F : Formats Bytes Hash) (R : Readers Bytes Hash)
    (request : PushRequest Client Bytes Hash) (w : Working Bytes Hash) :
    Push.Reconciled Bytes Hash → Prop
  | .ready prepared => Decides F R request w prepared
  | .stopped outcome => outcome.Stops

theorem keeps_bundleAssets {assets : List (PlannedAsset Bytes)}
    {bundle : Push.Bundle Bytes Hash} :
    Keeps F R request (Phase.Continues w fun _ _ => True) (Push.bundleAssets F assets bundle)
      (.working w) := by
  induction assets generalizing w bundle with
  | nil => exact keeps_pure trivial
  | cons asset rest ih =>
    unfold Push.bundleAssets
    split
    · exact ih
    · exact keeps_putBlob (Keeps.later (later_blob w _) ih)

theorem keeps_storeProjectInfo {snapshot : Bytes} :
    Keeps F R request (Phase.Continues w fun _ _ => True) (Push.storeProjectInfo F R snapshot)
      (.working w) := by
  unfold Push.storeProjectInfo
  split
  · exact keeps_pure trivial
  · exact keeps_putBlob ⟨later_blob w _, trivial⟩

/-- A push that got its commit accepted has advanced `HEAD` to it. -/
def Phase.Lands : Phase Bytes Hash → Commit Hash → Prop
  | .advanced _ commit, c => c = commit
  | _, _ => False

theorem keeps_writeCommitToPrimary {prepared : Push.Prepared Bytes Hash}
    {manifest : SampleManifest Hash} (hd : Decides F R request w prepared) :
    Keeps F R request Phase.Lands (Push.writeCommitToPrimary F R request prepared manifest)
      (.working w) := by
  refine keeps_putBlob (keeps_ofExcept fun manifestBytes hbytes => keeps_putBlob ?_)
  generalize hw₁ : (⟨_, _, _, _, _⟩ : Working Bytes Hash) = w₁
  have h₁ : w.Later w₁ := by
    subst hw₁
    exact ⟨rfl, rfl, fun _ h => h, fun _ h => by simp [h]⟩
  refine keeps_bind keeps_storeProjectInfo fun w₂ metadata h₂ _ => ?_
  refine Follows.run_bind trivial fun now => keeps_ofExcept fun id hid => ?_
  have hbuilds : ∀ commit : Commit Hash, commit.parents = prepared.parents →
      commit.tree = ⟨F.contentHash prepared.snapshot, F.contentHash manifestBytes⟩ →
      commit.timestamp = now.val → Builds F R request w₂ prepared.fromHead commit := by
    intro commit hp ht htime
    refine ⟨prepared, manifest, manifestBytes, hd.later (h₁.trans h₂), rfl, hp, by rw [ht], ?_,
      wrapped_ok hbytes, ?_, ?_⟩
    · rw [ht]
      exact h₂.blobs _ (by subst hw₁; simp)
    · rw [ht]
      exact h₂.blobs _ (by subst hw₁; simp)
    · have := now.isLt
      constructor <;> omega
  refine Follows.run_bind ⟨prepared.fromHead, hbuilds _ rfl rfl rfl⟩ fun _ => ?_
  refine Follows.run_bind ⟨rfl, hbuilds _ rfl rfl rfl⟩ fun answer => ?_
  cases answer with
  | advanced => rfl
  | conflict => trivial

variable [DecidableEq Hash]

theorem keeps_stashResource {given : List (String × Bytes)}
    {resource : SnapshotResource Bytes Hash} :
    Keeps F R request (Phase.Continues w fun _ _ => True) (Push.stashResource F given resource)
      (.working w) := by
  unfold Push.stashResource
  simp only
  split
  · trivial
  · split
    · trivial
    · exact keeps_putBlob ⟨later_blob w _, trivial⟩

theorem keeps_stashResources {given : List (String × Bytes)}
    {resources : List (SnapshotResource Bytes Hash)} {stored : List (String × Hash)} :
    Keeps F R request (Phase.Continues w fun _ _ => True)
      (Push.stashResources F given resources stored) (.working w) := by
  induction resources generalizing w stored with
  | nil => exact keeps_pure trivial
  | cons resource rest ih =>
    exact keeps_bind keeps_stashResource fun w' entry hl _ => Keeps.later hl ih

theorem keeps_stashSnapshot {base : Option Hash} {reason : String} :
    Keeps F R request (Phase.Continues w fun _ _ => True)
      (Push.stashSnapshot F R request base reason) (.working w) := by
  refine keeps_ofExcept fun canonical _ => keeps_ofExcept fun value _ => ?_
  refine keeps_ofExcept fun hydrates _ => keeps_ofExcept fun detached _ => ?_
  refine keeps_bind keeps_stashResources fun w' resources hl _ => keeps_putBlob ?_
  refine keeps_bind (keeps_modifySidecar fun _ _ => rfl) fun w'' _ hl' _ => ?_
  exact ⟨(hl.trans (later_blob _ _)).trans hl', trivial⟩

theorem keeps_mergeWithRemote {localId remoteId : Hash} (hl : w.localHead = some localId)
    (hr : w.remoteHead = some remoteId) (hne : remoteId ≠ localId) :
    Keeps F R request (Phase.Continues w (Settles F R request))
      (Push.mergeWithRemote F R request localId remoteId) (.working w) := by
  refine keeps_bind keeps_stashSnapshot fun w₁ _ h₁ _ => ?_
  refine keeps_getCommit fun ancestorCommit => keeps_getBlob fun ancestorBytes => ?_
  refine keeps_getCommit fun remoteCommit => keeps_getBlob fun remoteBytes => ?_
  refine keeps_ofExcept fun ancestorRaw hancestor => keeps_ofExcept fun currentRaw hcurrent => ?_
  refine keeps_ofExcept fun remoteRaw hremote => ?_
  -- both commits and their snapshots are on record from here on
  generalize hw₂ : (⟨_, _, _, _, _⟩ : Working Bytes Hash) = w₂
  refine keeps_bind keeps_normalizeForMerge fun w₃ ancestor h₃ ⟨blobs₃, hn₃⟩ => ?_
  refine keeps_bind keeps_normalizeForMerge fun w₄ current h₄ ⟨blobs₄, hn₄⟩ => ?_
  refine keeps_bind keeps_normalizeForMerge fun w₅ remote h₅ ⟨blobs₅, hn₅⟩ => ?_
  refine keeps_ofExcept fun merged hm => ?_
  have h₂ : w₁.Later w₂ := by
    subst hw₂
    exact ⟨rfl, rfl, fun e he => by simp [he], fun e he => by simp [he]⟩
  have h := ((h₁.trans h₂).trans h₃).trans (h₄.trans h₅)
  have hancestor₂ : w₂.Reads F R localId ancestor := by
    subst hw₂
    exact ⟨ancestorCommit, ancestorBytes, ancestorRaw, blobs₃, by simp, by simp, wrapped_ok hancestor,
      hn₃⟩
  have hremote₂ : w₂.Reads F R remoteId remote := by
    subst hw₂
    exact ⟨remoteCommit, remoteBytes, remoteRaw, blobs₅, by simp, by simp, wrapped_ok hremote, hn₅⟩
  have h₂₅ := (h₃.trans h₄).trans h₅
  cases merged with
  | stopped outcome => exact ⟨h, mergeAll_stops hm⟩
  | value merged =>
    exact ⟨h, .merge (h.localHead.trans hl) (h.remoteHead.trans hr) hne (hancestor₂.later h₂₅)
      (wrapped_ok hcurrent) hn₄ (hremote₂.later h₂₅) hm⟩

theorem keeps_reconcile :
    Keeps F R request (Phase.Continues w (Settles F R request))
      (Push.reconcile F R request w.remoteHead w.localHead) (.working w) := by
  unfold Push.reconcile
  split
  · rename_i heq
    exact keeps_pure (.fastForward heq)
  · rename_i hne
    split
    · rename_i hl
      exact keeps_pure (.first hl (fun hr => hne (hr.trans hl.symm)))
    · rename_i localId hl
      split
      · trivial
      · rename_i remoteId hr
        exact keeps_mergeWithRemote hl hr fun he => hne (by rw [hl, hr, he])

/-! The commit. -/

theorem keeps_bundleResource {given : List (String × Bytes)}
    {resource : SnapshotResource Bytes Hash} :
    Keeps F R request (Phase.Continues w fun _ _ => True) (Push.bundleResource F given resource)
      (.working w) := by
  unfold Push.bundleResource
  simp only
  split
  · exact keeps_putBlob ⟨later_blob w _, trivial⟩
  · refine keeps_getBlob fun bytes => ?_
    split
    · trivial
    · exact ⟨later_blob w _, trivial⟩

theorem keeps_bundleResources {given : List (String × Bytes)}
    {resources : List (SnapshotResource Bytes Hash)} {bundle : Push.Bundle Bytes Hash} :
    Keeps F R request (Phase.Continues w fun _ _ => True)
      (Push.bundleResources F given resources bundle) (.working w) := by
  induction resources generalizing w bundle with
  | nil => exact keeps_pure trivial
  | cons resource rest ih =>
    exact keeps_bind keeps_bundleResource fun w' bytes hl _ => Keeps.later hl ih

theorem keeps_buildSampleManifest {snapshot : Value} :
    Keeps F R request (Phase.Continues w fun _ _ => True)
      (Push.buildSampleManifest F R request snapshot) (.working w) := by
  refine keeps_bind keeps_bundleAssets fun w₁ bundle h₁ _ => keeps_ofExcept fun resources _ => ?_
  refine keeps_bind keeps_bundleResources fun w₂ bundle h₂ _ => ?_
  exact ⟨h₁.trans h₂, trivial⟩

theorem keeps_commitPrepared {prepared : Push.Prepared Bytes Hash}
    (hd : Decides F R request w prepared) :
    Keeps F R request Phase.Ends (Push.commitPrepared F R request prepared) (.working w) := by
  refine keeps_ofExcept fun snapshot _ => keeps_ofExcept fun _ _ => ?_
  refine keeps_bind keeps_buildSampleManifest fun w' bundle hl _ => ?_
  refine Follows.bind (keeps_writeCommitToPrimary (hd.later hl)) fun phase commit hlands => ?_
  cases phase with
  | advanced w'' stored =>
    obtain rfl : commit = stored := hlands
    refine keeps_ofExcept fun _ _ => ?_
    exact ⟨trivial, fun _ => ⟨trivial, fun _ => ⟨rfl, fun _ => ⟨_, _, _, rfl⟩, fun _ => trivial⟩,
      fun _ => trivial⟩, fun _ => trivial⟩
  | started => exact absurd hlands id
  | sawHead => exact absurd hlands id
  | working => exact absurd hlands id
  | stored => exact absurd hlands id

/-- Every push keeps to the protocol. -/
theorem keeps_pushWithOptions (F : Formats Bytes Hash) (R : Readers Bytes Hash)
    (request : PushRequest Client Bytes Hash) :
    Keeps F R request Phase.Ends (Push.pushWithOptions F R request) .started := by
  refine Follows.run_bind trivial fun remoteHead => Follows.run_bind trivial fun sidecar => ?_
  refine keeps_bind (keeps_reconcile
    (w := ⟨remoteHead, sidecar.localHead, sidecar, [], []⟩)) fun w' reconciled _ hs => ?_
  cases reconciled with
  | ready prepared => exact keeps_commitPrepared hs
  | stopped outcome => exact hs

end Rules

end AuruPm
