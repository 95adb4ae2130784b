import AuruPm.ManifestOrder
import AuruPm.MergedAssets
import AuruPm.PushCalls
import AuruPm.RunInvariant
import AuruPm.StashRecovery
import AuruPm.VerifiedCopy

/-!
# Verification among pushes

What a push has stored or read before it advances `HEAD` is a whole copy of its commit. So every
version that was ever `HEAD` passes its verification, whatever other clients do between the reads.
A retention pass leaves whole what it promises to keep.
-/

namespace AuruPm

set_option autoImplicit false

open SortedAssoc Threads

variable {Client Bytes Hash : Type}

/-- What a push has stored or read. -/
structure Evidence (Bytes Hash : Type) where
  blobs : List (Hash × Bytes)
  commits : List (Commit Hash)

def Evidence.next : Evidence Bytes Hash → (c : Call Bytes Hash) → c.Answer → Evidence Bytes Hash
  | e, .putBlob hash bytes, _ => { e with blobs := (hash, bytes) :: e.blobs }
  | e, .getBlob hash, bytes => { e with blobs := (hash, bytes) :: e.blobs }
  | e, .putCommit commit, _ => { e with commits := commit :: e.commits }
  | e, _, _ => e

/-- Everything in the first is in the second. -/
structure Evidence.Within (e e' : Evidence Bytes Hash) : Prop where
  blobs : ∀ b ∈ e.blobs, b ∈ e'.blobs
  commits : ∀ c ∈ e.commits, c ∈ e'.commits

/-- A blob of the size that the entry gives. -/
def Evidence.Covers (F : Formats Bytes Hash) (e : Evidence Bytes Hash)
    (entries : List (SampleEntry Hash)) : Prop :=
  ∀ entry ∈ entries, ∃ bytes, (entry.hash, bytes) ∈ e.blobs ∧ F.byteLength bytes = entry.size

/-- A commit of a validated snapshot, with all its objects in evidence. -/
structure Evidence.Vouches (F : Formats Bytes Hash) (R : Readers Bytes Hash)
    (e : Evidence Bytes Hash) (commit : Commit Hash) : Prop where
  stored : commit ∈ e.commits
  snapshot : ∃ bytes manifest encoded text value resources before,
    (commit.tree.snapshot, bytes) ∈ e.blobs ∧ R.canonicalBytes bytes = .ok text ∧
      F.decodeValue bytes = .ok value ∧ R.resources value = .ok resources ∧
      (commit.tree.samples, encoded) ∈ e.blobs ∧ F.encodeManifest manifest = .ok encoded ∧
      SortedEntries before ∧
      manifest.entries = insertAll before (resources.map SnapshotResource.entry) ∧
      e.Covers F manifest.entries
  metadata : ∀ hash ∈ commit.metadata, ∃ bytes, (hash, bytes) ∈ e.blobs

/-- `HEAD` is only advanced to a commit that the evidence vouches for. -/
def Evidence.Allows (F : Formats Bytes Hash) (R : Readers Bytes Hash) :
    Evidence Bytes Hash → Call Bytes Hash → Prop
  | e, .advanceHead _ toHead => ∃ commit, commit.id = toHead ∧ e.Vouches F R commit
  | _, _ => True

/-- Calls other than an advance. -/
def Call.IsWork : Call Bytes Hash → Prop
  | .advanceHead _ _ => False
  | _ => True

theorem isWork_of_isObject (c : Call Bytes Hash) (h : c.IsObject) : c.IsWork := by
  cases c <;> trivial

abbrev Vouched {α : Type} (F : Formats Bytes Hash) (R : Readers Bytes Hash)
    (ends : Evidence Bytes Hash → α → Prop) (x : Push Bytes Hash α) (e : Evidence Bytes Hash) :
    Prop :=
  Follows Evidence.next (Evidence.Allows F R) ends x e

section Rules
variable {F : Formats Bytes Hash} {R : Readers Bytes Hash} {request : PushRequest Client Bytes Hash}
variable {α β : Type} {e e' e'' : Evidence Bytes Hash}

theorem Evidence.Within.refl (e : Evidence Bytes Hash) : e.Within e :=
  ⟨fun _ h => h, fun _ h => h⟩

theorem Evidence.Within.trans (h : e.Within e') (h' : e'.Within e'') : e.Within e'' :=
  ⟨fun b hb => h'.blobs b (h.blobs b hb), fun c hc => h'.commits c (h.commits c hc)⟩

theorem Evidence.within_next (e : Evidence Bytes Hash) (c : Call Bytes Hash) (r : c.Answer) :
    e.Within (e.next c r) := by
  cases c with
  | putBlob hash bytes => exact ⟨fun _ h => List.mem_cons_of_mem _ h, fun _ h => h⟩
  | getBlob hash => exact ⟨fun _ h => List.mem_cons_of_mem _ h, fun _ h => h⟩
  | putCommit commit => exact ⟨fun _ h => h, fun _ h => List.mem_cons_of_mem _ h⟩
  | _ => exact .refl e

theorem Evidence.Covers.within {entries : List (SampleEntry Hash)} (h : e.Covers F entries)
    (hw : e.Within e') : e'.Covers F entries := by
  intro entry he
  obtain ⟨bytes, hb, hsize⟩ := h entry he
  exact ⟨bytes, hw.blobs _ hb, hsize⟩

theorem Evidence.Covers.insert {entries : List (SampleEntry Hash)} (h : e.Covers F entries)
    {entry : SampleEntry Hash} {bytes : Bytes} (hb : (entry.hash, bytes) ∈ e.blobs)
    (hsize : F.byteLength bytes = entry.size) : e.Covers F (insertEntry entry entries) := by
  intro found hfound
  rcases mem_insertEntry hfound with rfl | hfound
  · exact ⟨bytes, hb, hsize⟩
  · exact h found hfound

/-- Work only adds to the evidence. -/
theorem vouched_only {x : Push Bytes Hash α} (hx : x.Only Call.IsWork) :
    Vouched F R (fun e' _ => e.Within e') x e := by
  induction x generalizing e with
  | done a => exact .refl e
  | fail e => trivial
  | call c next ih =>
    have hc : e.Allows F R c := by
      cases c <;> first | trivial | exact False.elim hx.1
    refine ⟨hc, fun r => ?_, fun err => ih _ (hx.2 (.error err))⟩
    exact (ih _ (hx.2 (.ok r))).weaken fun _ _ h => (e.within_next c r).trans h

theorem vouched_any {x : Push Bytes Hash α} (hx : x.Only Call.IsWork) :
    Vouched F R (fun _ _ => True) x e :=
  (vouched_only hx).weaken fun _ _ _ => trivial

theorem vouched_putBlob {ends : Evidence Bytes Hash → β → Prop} {hash : Hash} {bytes : Bytes}
    {what : String} {f : Unit → Push Bytes Hash β}
    (hf : Vouched F R ends (f ()) { e with blobs := (hash, bytes) :: e.blobs }) :
    Vouched F R ends (ask (.putBlob hash bytes) what >>= f) e :=
  Follows.run_bind trivial fun _ => hf

theorem vouched_ofExcept {ends : Evidence Bytes Hash → β → Prop} {x : Except String α}
    {f : α → Push Bytes Hash β} (hf : ∀ a, x = .ok a → Vouched F R ends (f a) e) :
    Vouched F R ends (Prog.ofExcept x >>= f) e :=
  Follows.ofExcept_bind hf

/-! The manifest. -/

theorem SortedEntries.insertAll {entries new : List (SampleEntry Hash)} (h : SortedEntries entries) :
    SortedEntries (insertAll entries new) := by
  induction new generalizing entries with
  | nil => exact h
  | cons entry new ih => exact ih (h.insertEntry entry)

theorem SortedEntries.find?_path {entries : List (SampleEntry Hash)} (h : SortedEntries entries)
    {entry : SampleEntry Hash} (he : entry ∈ entries) :
    entries.find? (fun e => decide (e.path = entry.path)) = some entry := by
  induction entries with
  | nil => cases he
  | cons first rest ih =>
    obtain ⟨hbelow, hrest⟩ := List.pairwise_cons.mp h
    rcases List.mem_cons.mp he with rfl | he
    · exact List.find?_cons_of_pos (decide_eq_true rfl)
    · rw [List.find?_cons_of_neg (by simpa using (hbelow entry he).ne)]
      exact ih hrest he

/-- What the manifest in the making holds is in evidence. -/
theorem vouched_bundleAssets {assets : List (PlannedAsset Bytes)} {bundle : Push.Bundle Bytes Hash}
    (hsorted : SortedEntries bundle.manifest.entries) (h : e.Covers F bundle.manifest.entries) :
    Vouched F R (fun e' bundle' => e.Within e' ∧ SortedEntries bundle'.manifest.entries ∧
      e'.Covers F bundle'.manifest.entries) (Push.bundleAssets F assets bundle) e := by
  induction assets generalizing bundle e with
  | nil => exact ⟨.refl e, hsorted, h⟩
  | cons asset rest ih =>
    unfold Push.bundleAssets
    split
    · exact ih hsorted h
    · rename_i bytes _
      refine vouched_putBlob ?_
      have hw := e.within_next (.putBlob (F.contentHash bytes) bytes) ()
      refine Follows.weaken (ih (hsorted.insertEntry _) ((h.within hw).insert ?_ rfl)) fun _ _ h' => ?_
      · exact List.mem_cons_self
      · exact ⟨hw.trans h'.1, h'.2⟩

variable [DecidableEq Hash]

theorem matchedBy_size {resource : SnapshotResource Bytes Hash} {bytes : Bytes}
    (h : Push.SnapshotResource.matchedBy F resource bytes = true) :
    F.byteLength bytes = resource.size := by
  simp only [Push.SnapshotResource.matchedBy, Bool.and_eq_true, decide_eq_true_eq] at h
  exact h.2

theorem vouched_bundleResource {given : List (String × Bytes)}
    {resource : SnapshotResource Bytes Hash} :
    Vouched F R (fun e' bytes => e.Within e' ∧ (resource.hash, bytes) ∈ e'.blobs ∧
      F.byteLength bytes = resource.size) (Push.bundleResource F given resource) e := by
  unfold Push.bundleResource
  simp only
  split
  · rename_i bytes hcandidate
    refine vouched_putBlob ⟨e.within_next (.putBlob resource.hash bytes) (), List.mem_cons_self, ?_⟩
    rcases Option.or_eq_some_iff.mp hcandidate with hc | ⟨-, hc⟩
    · exact matchedBy_size (Option.filter_eq_some_iff.mp hc).2
    · exact matchedBy_size (Option.filter_eq_some_iff.mp hc).2
  · refine Follows.run_bind trivial fun bytes => ?_
    split
    · trivial
    · rename_i hmatched
      simp only [Bool.not_eq_true, Bool.not_eq_false'] at hmatched
      exact ⟨e.within_next (.getBlob resource.hash) bytes, List.mem_cons_self,
        matchedBy_size hmatched⟩

theorem vouched_bundleResources {given : List (String × Bytes)}
    {resources : List (SnapshotResource Bytes Hash)} {bundle : Push.Bundle Bytes Hash}
    (h : e.Covers F bundle.manifest.entries) :
    Vouched F R (fun e' bundle' => e.Within e' ∧ e'.Covers F bundle'.manifest.entries ∧
      bundle'.manifest.entries =
        insertAll bundle.manifest.entries (resources.map SnapshotResource.entry))
      (Push.bundleResources F given resources bundle) e := by
  induction resources generalizing bundle e with
  | nil => exact ⟨.refl e, h, rfl⟩
  | cons resource rest ih =>
    refine Follows.bind vouched_bundleResource fun e' bytes h' => ?_
    obtain ⟨hw, hb, hsize⟩ := h'
    exact Follows.weaken (ih ((h.within hw).insert hb hsize)) fun _ _ h'' =>
      ⟨hw.trans h''.1, h''.2⟩

theorem vouched_buildSampleManifest {snapshot : Value} :
    Vouched F R (fun e' bundle => e.Within e' ∧ e'.Covers F bundle.manifest.entries ∧
      ∃ resources before, R.resources snapshot = .ok resources ∧ SortedEntries before ∧
        bundle.manifest.entries = insertAll before (resources.map SnapshotResource.entry))
      (Push.buildSampleManifest F R request snapshot) e := by
  have hempty : e.Covers F [] := fun _ h => absurd h List.not_mem_nil
  refine Follows.bind (vouched_bundleAssets List.Pairwise.nil hempty) fun e₁ bundle h₁ => ?_
  refine vouched_ofExcept fun resources hresources => ?_
  refine Follows.bind (vouched_bundleResources h₁.2.2) fun e₂ bundle₂ h₂ => ?_
  exact ⟨h₁.1.trans h₂.1, h₂.2.1, resources, _, wrapped_ok hresources, h₁.2.1, h₂.2.2⟩

/-! The commit. -/

omit [DecidableEq Hash] in
theorem vouched_storeProjectInfo {snapshot : Bytes} :
    Vouched F R (fun e' metadata => e.Within e' ∧ ∀ hash ∈ metadata, ∃ bytes, (hash, bytes) ∈ e'.blobs)
      (Push.storeProjectInfo F R snapshot) e := by
  unfold Push.storeProjectInfo
  split
  · exact ⟨.refl e, fun hash h => by cases h⟩
  · rename_i bytes _
    refine vouched_putBlob ⟨e.within_next (.putBlob (F.contentHash bytes) bytes) (), ?_⟩
    intro hash h
    cases h
    exact ⟨bytes, List.mem_cons_self⟩

omit [DecidableEq Hash] in
/-- The commit is made of what is in evidence, and `HEAD` advanced to it. -/
theorem vouched_writeCommitToPrimary {prepared : Push.Prepared Bytes Hash}
    {manifest : SampleManifest Hash} {text : Bytes} {value : Value}
    {resources : List (SnapshotResource Bytes Hash)} {before : List (SampleEntry Hash)}
    (htext : R.canonicalBytes prepared.snapshot = .ok text)
    (hvalue : F.decodeValue prepared.snapshot = .ok value)
    (hresources : R.resources value = .ok resources) (hsorted : SortedEntries before)
    (hentries : manifest.entries = insertAll before (resources.map SnapshotResource.entry))
    (hcovers : e.Covers F manifest.entries) :
    Vouched F R (fun _ _ => True) (Push.writeCommitToPrimary F R request prepared manifest) e := by
  refine vouched_putBlob (vouched_ofExcept fun encoded hencoded => vouched_putBlob ?_)
  generalize he₁ : (⟨_, _⟩ : Evidence Bytes Hash) = e₁
  have hsnapshot : (F.contentHash prepared.snapshot, prepared.snapshot) ∈ e₁.blobs := by
    subst he₁
    exact List.mem_cons_of_mem _ List.mem_cons_self
  have hsamples : (F.contentHash encoded, encoded) ∈ e₁.blobs := by
    subst he₁
    exact List.mem_cons_self
  have hw₁ : e.Within e₁ := by
    subst he₁
    exact ⟨fun _ h => List.mem_cons_of_mem _ (List.mem_cons_of_mem _ h), fun _ h => h⟩
  refine Follows.bind vouched_storeProjectInfo fun e₂ metadata h₂ => ?_
  have hcovers₂ : e₂.Covers F manifest.entries := (hcovers.within hw₁).within h₂.1
  refine Follows.run_bind trivial fun now => vouched_ofExcept fun id _ => ?_
  refine Follows.run_bind trivial fun _ => Follows.run_bind ⟨_, rfl, ?_⟩ fun answer => ?_
  · refine ⟨List.mem_cons_self, ?_, h₂.2⟩
    exact ⟨prepared.snapshot, manifest, encoded, text, value, resources, before,
      h₂.1.blobs _ hsnapshot, htext, hvalue, hresources, h₂.1.blobs _ hsamples, wrapped_ok hencoded,
      hsorted, hentries, hcovers₂⟩
  · cases answer <;> trivial

omit [DecidableEq Hash] in
theorem work_modifySidecar (what : String) (f : Clock → Sidecar Hash → Sidecar Hash) :
    (Push.modifySidecar what f : Push Bytes Hash Unit).Only Call.IsWork :=
  (Push.only_ask trivial).bind fun _ => (Push.only_ask trivial).bind fun _ => Push.only_ask trivial

theorem vouched_commitPrepared {prepared : Push.Prepared Bytes Hash} :
    Vouched F R (fun _ _ => True) (Push.commitPrepared F R request prepared) e := by
  refine vouched_ofExcept fun value hvalue => vouched_ofExcept fun text htext => ?_
  refine Follows.bind vouched_buildSampleManifest fun e' bundle h => ?_
  obtain ⟨-, hcovers, resources, before, hresources, hsorted, hentries⟩ := h
  refine Follows.bind (vouched_writeCommitToPrimary (wrapped_ok htext) (wrapped_ok hvalue) hresources
    hsorted hentries hcovers) fun _ commit _ => vouched_any ?_
  exact (Prog.only_ofExcept _).bind fun _ => (work_modifySidecar ..).bind fun _ => Prog.only_pure _

theorem only_stashSnapshot {base : Option Hash} {reason : String} :
    (Push.stashSnapshot F R request base reason).Only Call.IsWork := by
  refine (Prog.only_ofExcept _).bind fun _ => (Prog.only_ofExcept _).bind fun _ => ?_
  refine (Prog.only_ofExcept _).bind fun _ => (Prog.only_ofExcept _).bind fun _ => ?_
  refine (Push.only_stashResources.imp isWork_of_isObject).bind fun _ => ?_
  exact (Push.only_ask trivial).bind fun _ => (work_modifySidecar ..).bind fun _ => Prog.only_pure _

theorem only_reconcile {remoteHead localHead : Option Hash} :
    (Push.reconcile F R request remoteHead localHead).Only Call.IsWork := by
  unfold Push.reconcile
  split
  · trivial
  · cases localHead with
    | none => trivial
    | some localId =>
      cases remoteHead with
      | none => trivial
      | some remoteId =>
        exact only_stashSnapshot.bind fun _ => Push.only_mergeStashed.imp isWork_of_isObject

/-- Every push advances `HEAD` only to a commit that it has evidence for. -/
theorem vouched_pushWithOptions (F : Formats Bytes Hash) (R : Readers Bytes Hash)
    (request : PushRequest Client Bytes Hash) :
    Vouched F R (fun _ _ => True) (Push.pushWithOptions F R request) ⟨[], []⟩ := by
  refine Follows.run_bind trivial fun remoteHead => Follows.run_bind trivial fun sidecar => ?_
  refine Follows.bind (vouched_only only_reconcile) fun e reconciled _ => ?_
  cases reconciled with
  | ready prepared => exact vouched_commitPrepared
  | stopped outcome => trivial

end Rules

/-! Hydration in the kernel. -/

section Kernel
variable {F : Formats Bytes Hash} {C : Codecs Bytes Hash} {limit : Nat}
variable {problems : Value → List IntegrityProblem} {info : Value → Option Bytes}

/-- The canonical text of a validated snapshot tells whether it has to be hydrated, and only a
DAWproject has. -/
theorem kernel_needsHydration (hJ : F.ReadsBack limit) {bytes text : Bytes}
    (h : (kernelReaders F C problems info).canonicalBytes bytes = .ok text) :
    ∃ hydrates, (kernelReaders F C problems info).needsHydration text = .ok hydrates ∧
      (hydrates = true → ∃ v, F.decodeValue bytes = .ok v ∧ snapshotFormat C v = .ok .dawproject) := by
  obtain ⟨snapshot, hsnapshot, rfl⟩ := map_ok_iff.mp h
  obtain ⟨v, hv, hsnapshot⟩ := bind_ok_iff.mp hsnapshot
  obtain ⟨format, hformat, hsnapshot⟩ := bind_ok_iff.mp hsnapshot
  cases hsnapshot
  rw [parseJson_ok_iff] at hv
  obtain ⟨hwf, hdepth⟩ := hJ.decoded bytes v hv
  obtain ⟨w, hw, heq⟩ := hJ.encoded v hwf hdepth
  have hformat' : snapshotFormat C w = .ok format := by
    rw [← snapshotFormat_unfloat, heq, snapshotFormat_unfloat, hformat]
  have hparse : parseJson F (F.encodeValue v) = .ok w := parseJson_ok_iff.mpr hw
  by_cases hdaw : format = .dawproject
  · subst hdaw
    obtain ⟨fields, p, rfl, -, hp, hvalid⟩ := snapshotFormat_dawproject hformat'
    have hportable : dawprojectPortable F C ⟨.dawproject, F.encodeValue v, []⟩ = .ok p := by
      have hread : ProjectSnapshot.portable F C ⟨.dawproject, F.encodeValue v, []⟩ = .ok (some p) :=
        bind_ok_iff.mpr ⟨_, hparse, bind_ok_iff.mpr
          ⟨p, serdeResult_ok_iff.mpr hp, bind_ok_iff.mpr ⟨(), hvalid, rfl⟩⟩⟩
      exact bind_ok_iff.mpr ⟨some p, hread, rfl⟩
    refine ⟨p.resources.any fun resource => resource.data.isNone, ?_, fun _ => ⟨v, hv, hformat⟩⟩
    exact bind_ok_iff.mpr ⟨_, hparse, bind_ok_iff.mpr ⟨_, hformat',
      bind_ok_iff.mpr ⟨p, hportable, rfl⟩⟩⟩
  · refine ⟨false, ?_, fun h => by cases h⟩
    refine bind_ok_iff.mpr ⟨_, hparse, bind_ok_iff.mpr ⟨_, hformat', ?_⟩⟩
    rw [if_neg hdaw]
    rfl

end Kernel

/-! What pushes know. -/

section Knowledge
variable [DecidableEq Hash]

/-- The reads of a folder when nothing fails underneath. -/
def FilesystemProvider.answers (F : Formats Bytes Hash) (p : FilesystemProvider Bytes Hash) :
    Answers Bytes Hash
  | .getCommit id => p.getCommit F {} id
  | .getBlob hash => p.getBlob F {} hash

variable (F : Formats Bytes Hash) (R : Readers Bytes Hash)

/-- The folder holds a whole copy of the version, with its files listed by their paths. -/
def HoldsCopy (p : FilesystemProvider Bytes Hash) (id : Hash) : Prop :=
  ∃ commit snapshotBytes manifest, commit.id = id ∧ commit.InRange ∧
    SortedEntries manifest.entries ∧ CopyOf F R (p.answers F) commit snapshotBytes manifest

/-- Before there is a floor, every version that was ever `HEAD` is held whole. -/
def VersionsHeld (s : Shared Client Bytes Hash) : Prop :=
  s.provider.floor = .missing → ∀ id ∈ s.versions, HoldsCopy F R s.provider id

structure KnowsEvidence (e : Evidence Bytes Hash) (s : Shared Client Bytes Hash) : Prop where
  hashes : ∀ b ∈ e.blobs, F.contentHash b.2 = b.1
  blobs : s.provider.floor = .missing → ∀ b ∈ e.blobs, s.provider.blobs.get F {} b.1 = .ok b.2
  commits : s.provider.floor = .missing → ∀ c ∈ e.commits,
    c.Genuine F ∧ s.provider.readCommit F {} c.id = .ok c

/-- A push is in some phase, and has its evidence. -/
def KnowsRunning (push : Nat) (p : Running Client Bytes Hash) (s : Shared Client Bytes Hash) : Prop :=
  ∃ phase e, Keeps F R p.request Phase.Ends p.program phase ∧ KnowsPhase F push p.request phase s ∧
    Vouched F R (fun _ _ => True) p.program e ∧ KnowsEvidence F e s

variable {F R} {s s' : Shared Client Bytes Hash}

theorem KnowsEvidence.grows {e : Evidence Bytes Hash} (h : KnowsEvidence F e s) (hg : Grows F s s') :
    KnowsEvidence F e s' where
  hashes := h.hashes
  blobs hm b hb := (hg.objects hm).blobs _ _ (h.blobs (hg.floor hm) b hb)
  commits hm c hc := by
    obtain ⟨hgenuine, hread⟩ := h.commits (hg.floor hm) c hc
    exact ⟨hgenuine, (hg.objects hm).commits _ _ hread⟩

theorem KnowsEvidence.read {e : Evidence Bytes Hash} (h : KnowsEvidence F e s) {hash : Hash}
    {bytes : Bytes} (hhash : F.contentHash bytes = hash)
    (hget : s.provider.blobs.get F {} hash = .ok bytes) :
    KnowsEvidence F { e with blobs := (hash, bytes) :: e.blobs } s where
  hashes := List.forall_mem_cons.mpr ⟨hhash, h.hashes⟩
  blobs hm := List.forall_mem_cons.mpr ⟨hget, h.blobs hm⟩
  commits := h.commits

/-- Everything that is read stays as it was. -/
theorem HoldsCopy.keeps {p p' : FilesystemProvider Bytes Hash} {id : Hash} (h : HoldsCopy F R p id)
    (hk : p.Keeps F p') : HoldsCopy F R p' id := by
  obtain ⟨commit, snapshotBytes, manifest, hid, hrange, hsorted, hcopy⟩ := h
  have hserves : ∀ hash bytes, Serves F (p.answers F) hash bytes →
      Serves F (p'.answers F) hash bytes :=
    fun hash bytes hs => ⟨hk.blobs _ _ hs.1, hs.2⟩
  refine ⟨commit, snapshotBytes, manifest, hid, hrange, hsorted, ?_⟩
  exact {
    found := hk.commits _ _ hcopy.found
    computed := hcopy.computed
    snapshot := hserves _ _ hcopy.snapshot
    samples := hcopy.samples.imp fun bytes h => ⟨hserves _ _ h.1, h.2⟩
    metadata := fun hash hm => (hcopy.metadata hash hm).imp fun bytes h => hserves _ _ h
    entries := fun entry he =>
      (hcopy.entries entry he).imp fun bytes h => ⟨hserves _ _ h.1, h.2⟩
    canonical := hcopy.canonical }

theorem VersionsHeld.grows (h : VersionsHeld F R s) (hg : Grows F s s')
    (hv : s'.versions = s.versions) : VersionsHeld F R s' := by
  intro hm id hid
  rw [hv] at hid
  exact (h (hg.floor hm) id hid).keeps (hg.objects hm)

end Knowledge

/-! Runs. -/

section Runs
variable [DecidableEq Hash] {F : Formats Bytes Hash} {C : Codecs Bytes Hash} {limit : Nat}
variable {problems : Value → List IntegrityProblem} {info : Value → Option Bytes}
variable {s s' : Shared Client Bytes Hash}

/-- A commit with evidence is held whole. -/
theorem Evidence.Vouches.holds (hF : F.Lawful) (hJ : F.ReadsBack limit)
    {e : Evidence Bytes Hash} {commit : Commit Hash}
    (h : e.Vouches F (kernelReaders F C problems info) commit) (hk : KnowsEvidence F e s)
    (hm : s.provider.floor = .missing) :
    HoldsCopy F (kernelReaders F C problems info) s.provider commit.id := by
  obtain ⟨bytes, manifest, encoded, text, value, resources, before, hbytes, htext, hvalue, hresources,
    hencoded, hencode, hsorted, hentries, hcovers⟩ := h.snapshot
  obtain ⟨hgenuine, hread⟩ := hk.commits hm commit h.stored
  have hserves : ∀ b ∈ e.blobs, Serves F (s.provider.answers F) b.1 b.2 :=
    fun b hb => ⟨hk.blobs hm b hb, hk.hashes b hb⟩
  refine ⟨commit, bytes, manifest, rfl, hgenuine.1, hentries ▸ hsorted.insertAll, ?_⟩
  exact {
    found := hread
    computed := hgenuine.2
    snapshot := hserves _ hbytes
    samples := ⟨encoded, hserves _ hencoded, hF.decode_manifest manifest encoded hencode⟩
    metadata := fun hash hmem => (h.metadata hash hmem).imp fun _ hb => hserves _ hb
    entries := fun entry he => (hcovers entry he).imp fun _ hb => ⟨hserves _ hb.1, hb.2⟩
    canonical := by
      obtain ⟨hydrates, hneeds, hdaw⟩ := kernel_needsHydration hJ htext
      refine ⟨text, hydrates, htext, hneeds, fun htrue => ⟨value, resources, hvalue, hresources, ?_⟩⟩
      obtain ⟨v, hv, hformat⟩ := hdaw htrue
      obtain rfl : value = v := Except.ok.inj (hvalue.symm.trans hv)
      have hpaths : ((resources.map SnapshotResource.entry).map SampleEntry.path).Nodup := by
        rw [List.map_map]
        exact snapshotResources_nodup hformat hresources
      intro resource hr
      have hmem : resource.entry ∈ manifest.entries := by
        rw [hentries]
        exact mem_insertAll_of_nodup (List.mem_map_of_mem hr) hpaths
      have hfound := SortedEntries.find?_path (hentries ▸ hsorted.insertAll) hmem
      exact ⟨resource.entry, hfound, rfl, rfl⟩ }

variable [DecidableEq Client] {limits : Limits Client Bytes Hash} {push : Nat}
variable {request : PushRequest Client Bytes Hash}

/-- A call other than an advance leaves the versions as they are. -/
theorem versions_of_work {clock : Clock} {c : Call Bytes Hash} {answer : c.Answer} (hc : c.IsWork)
    (h : s.perform F clock push request c = .ok (answer, s')) : s'.versions = s.versions := by
  cases c with
  | advanceHead => exact False.elim hc
  | now => cases h; rfl
  | loadSidecar => cases h; rfl
  | saveSidecar => cases h; rfl
  | getHead =>
    obtain ⟨_, -, heq⟩ := map_ok_iff.mp h
    cases heq
    rfl
  | putBlob =>
    obtain ⟨_, -, heq⟩ := map_ok_iff.mp h
    cases heq
    rfl
  | getBlob =>
    obtain ⟨_, -, heq⟩ := map_ok_iff.mp h
    cases heq
    rfl
  | putCommit =>
    obtain ⟨_, -, heq⟩ := map_ok_iff.mp h
    cases heq
    rfl
  | getCommit =>
    obtain ⟨_, -, heq⟩ := map_ok_iff.mp h
    cases heq
    rfl

/-- A call adds to the evidence only what it has stored or read. -/
theorem KnowsEvidence.next (hF : F.Lawful) {clock : Clock} {c : Call Bytes Hash} {answer : c.Answer}
    {e : Evidence Bytes Hash} (hk : KnowsEvidence F e s) (hs : Settled F s) (hg : Grows F s s')
    (hrange : ∀ commit, c = .putCommit commit → commit.InRange)
    (h : s.perform F clock push request c = .ok (answer, s')) :
    KnowsEvidence F (e.next c answer) s' := by
  have hkept := hk.grows hg
  cases c with
  | putBlob hash bytes =>
    obtain ⟨p, hput, heq⟩ := map_ok_iff.mp h
    cases heq
    obtain ⟨-, -, -, -, hhash, hget⟩ := FilesystemProvider.putBlob_spec hF hs.sound hput
    exact hkept.read hhash hget
  | getBlob hash =>
    obtain ⟨bytes, hget, heq⟩ := map_ok_iff.mp h
    cases heq
    exact hkept.read (FilesystemProvider.get_hash hget) hget
  | putCommit commit =>
    obtain ⟨p, hput, heq⟩ := map_ok_iff.mp h
    cases heq
    obtain ⟨-, -, -, -, hgenuine, hread⟩ :=
      FilesystemProvider.putCommit_spec hF hs.sound (hrange commit rfl) hput
    exact ⟨hkept.hashes, hkept.blobs,
      fun hm => List.forall_mem_cons.mpr ⟨⟨hgenuine, hread⟩, hkept.commits hm⟩⟩
  | now => exact hkept
  | loadSidecar => exact hkept
  | saveSidecar => exact hkept
  | getHead => exact hkept
  | advanceHead => exact hkept
  | getCommit => exact hkept

omit [DecidableEq Client] [DecidableEq Hash] in
/-- A commit that some phase allows to be stored is in range. -/
theorem inRange_of_allows {R : Readers Bytes Hash} {phase : Phase Bytes Hash} {commit : Commit Hash}
    (h : phase.Allows F R request (.putCommit commit)) : commit.InRange := by
  cases phase with
  | working w =>
    obtain ⟨_, _, _, _, _, _, _, _, _, _, _, hrange⟩ := h
    exact hrange
  | started => exact False.elim h
  | sawHead => exact False.elim h
  | stored => exact False.elim h
  | advanced => exact False.elim h

/-- An answered call keeps every version held, and the push keeps its knowledge. -/
theorem verified_performs (hF : F.Lawful) (hJ : F.ReadsBack limit) {clock : Clock}
    {c : Call Bytes Hash} {next : Except Error c.Answer → Push Bytes Hash (PushOutcome Hash)}
    {answer : c.Answer} (hmay : limits.Allow s c)
    (h : s.perform F clock push request c = .ok (answer, s')) (hs : Settled F s)
    (hv : VersionsHeld F (kernelReaders F C problems info) s)
    (hk : KnowsRunning F (kernelReaders F C problems info) push ⟨request, .call c next⟩ s) :
    (Settled F s' ∧ VersionsHeld F (kernelReaders F C problems info) s') ∧ Grows F s s' ∧
      KnowsRunning F (kernelReaders F C problems info) push ⟨request, next (.ok answer)⟩ s' := by
  obtain ⟨phase, e, ⟨hallows, hok, -⟩, hphase, ⟨hvouches, hvok, -⟩, hevidence⟩ := hk
  obtain ⟨hs', hg, hphase'⟩ := settled_moves hF (moves_of_perform hallows hmay h) hs hphase
  have hevidence' : KnowsEvidence F (e.next c answer) s' := by
    refine hevidence.next hF hs hg (fun commit hc => ?_) h
    subst hc
    exact inRange_of_allows hallows
  refine ⟨⟨hs', ?_⟩, hg, _, _, hok answer, hphase', hvok answer, hevidence'⟩
  by_cases hc : c.IsWork
  · exact hv.grows hg (versions_of_work hc h)
  · cases c with
    | advanceHead fromHead toHead =>
      obtain ⟨⟨p, result⟩, hadvance, heq⟩ := map_ok_iff.mp h
      cases result with
      | conflict current =>
        cases heq
        exact hv
      | advanced =>
        cases heq
        obtain ⟨commit, rfl, hvouch⟩ := hvouches
        intro hm id hid
        have hm₀ := hg.floor hm
        refine HoldsCopy.keeps ?_ (hg.objects hm)
        rcases List.mem_cons.mp hid with rfl | hid
        · exact hvouch.holds hF hJ hevidence hm₀
        · exact hv hm₀ id hid
    | _ => exact absurd trivial hc

theorem verified_outline (hF : F.Lawful) (hJ : F.ReadsBack limit)
    (limits : Limits Client Bytes Hash) :
    Outline (clients F (kernelReaders F C problems info) limits) (Grows F)
      (fun s => Settled F s ∧ VersionsHeld F (kernelReaders F C problems info) s)
      (KnowsRunning F (kernelReaders F C problems info)) where
  stable _ _ _ _ hg _ _ := by
    rintro ⟨phase, e, hkeeps, hphase, hvouched, hevidence⟩
    exact ⟨phase, e, hkeeps, hphase.grows hg, hvouched, hevidence.grows hg⟩
  env s s' henv := by
    rintro ⟨hs, hv⟩
    rcases henv with ⟨pass, -, rfl⟩ | ⟨client, sidecar, -, rfl⟩
    · obtain ⟨hs', hg⟩ := hs.prune pass
      exact ⟨⟨hs', hv.grows hg rfl⟩, hg⟩
    · obtain ⟨hs', hg⟩ := hs.save client sidecar
      exact ⟨⟨hs', hv.grows hg rfl⟩, hg⟩
  begins push s p hb _ := by
    obtain ⟨request, rfl⟩ := hb
    exact ⟨.started, ⟨[], []⟩, keeps_pushWithOptions F _ request, trivial,
      vouched_pushWithOptions F _ request, fun _ h => absurd h List.not_mem_nil,
      fun _ _ h => absurd h List.not_mem_nil, fun _ _ h => absurd h List.not_mem_nil⟩
  acts push p s p' s' ha := by
    rintro ⟨hs, hv⟩ hk
    cases ha with
    | answered hmay h => exact verified_performs hF hJ hmay h hs hv hk
    | failed err =>
      obtain ⟨phase, e, hkeeps, hphase, hvouched, hevidence⟩ := hk
      exact ⟨⟨hs, hv⟩, .refl s, phase, e, hkeeps.2.2 err, hphase, hvouched.2.2 err, hevidence⟩
  ends push p s s' he := by
    rintro ⟨hs, hv⟩ _
    obtain ⟨outcome, -, rfl⟩ := he
    exact ⟨⟨⟨hs.sound, hs.head, hs.floor⟩, hv⟩, ⟨List.suffix_refl _, id, fun _ => .refl _⟩⟩

/-- Whatever happens as long as no pass has written a floor. -/
def Unpruned (F : Formats Bytes Hash) (R : Readers Bytes Hash) (limits : Limits Client Bytes Hash)
    (w w' : World (Shared Client Bytes Hash) Nat (Running Client Bytes Hash)) : Prop :=
  Relation.ReflTransGen (clients F R limits).Step w w' ∧ w'.shared.provider.floor = .missing

/-- The reads of the folder in a state of a run. -/
def worldAnswers (F : Formats Bytes Hash)
    (w : World (Shared Client Bytes Hash) Nat (Running Client Bytes Hash)) : Answers Bytes Hash :=
  w.shared.provider.answers F

theorem versions_of_step {R : Readers Bytes Hash}
    {w w' : World (Shared Client Bytes Hash) Nat (Running Client Bytes Hash)}
    (h : (clients F R limits).Step w w') {id : Hash} (hid : id ∈ w.shared.versions) :
    id ∈ w'.shared.versions := by
  cases h with
  | env henv =>
    rcases henv with ⟨pass, -, rfl⟩ | ⟨client, sidecar, -, rfl⟩
    · exact hid
    · exact hid
  | begins => exact hid
  | abandon => exact hid
  | ends hi he =>
    obtain ⟨outcome, -, rfl⟩ := he
    exact hid
  | acts hi ha =>
    cases ha with
    | failed => exact hid
    | @answered request s s' c next clock answer hmay h =>
      by_cases hc : c.IsWork
      · exact (versions_of_work hc h).symm ▸ hid
      · cases c with
        | advanceHead fromHead toHead =>
          obtain ⟨⟨p, result⟩, -, heq⟩ := map_ok_iff.mp h
          cases result with
          | conflict => cases heq; exact hid
          | advanced => cases heq; exact List.mem_cons_of_mem _ hid
        | _ => exact absurd trivial hc

/-- Until a pass writes a floor, every version that was ever `HEAD` is held whole in every state
of every run. -/
theorem versionsHeld_of_reachable (hF : F.Lawful) (hJ : F.ReadsBack limit)
    {w : World (Shared Client Bytes Hash) Nat (Running Client Bytes Hash)}
    (hr : (clients F (kernelReaders F C problems info) limits).Reachable .start w) :
    VersionsHeld F (kernelReaders F C problems info) w.shared :=
  ((verified_outline hF hJ limits).reachable
    ⟨settled_start, fun _ _ h => absurd h List.not_mem_nil⟩ hr).1.2

/-- What a version that was ever `HEAD` is read with does not change before there is a floor. -/
theorem answers_of_unpruned (hF : F.Lawful) (hJ : F.ReadsBack limit)
    {w w' : World (Shared Client Bytes Hash) Nat (Running Client Bytes Hash)}
    (hr : (clients F (kernelReaders F C problems info) limits).Reachable .start w)
    (hw : Unpruned F (kernelReaders F C problems info) limits w w')
    {commit : Commit Hash} {snapshotBytes : Bytes} {manifest : SampleManifest Hash}
    (hid : commit.id ∈ w.shared.versions) (hrange : commit.InRange)
    (hcopy : CopyOf F (kernelReaders F C problems info) (worldAnswers F w) commit snapshotBytes
      manifest) {call : ReadCall Bytes Hash}
    (hcall : call ∈ ReadCall.getCommit commit.id ::
      (FilesystemProvider.commitBlobs commit manifest).map ReadCall.getBlob) :
    worldAnswers F w' call = worldAnswers F w call := by
  -- the version is still there, and held whole
  have hlater : (clients F (kernelReaders F C problems info) limits).Reachable .start w' ∧
      commit.id ∈ w'.shared.versions := by
    have hsteps := hw.1
    clear hw
    induction hsteps with
    | refl => exact ⟨hr, hid⟩
    | tail _ hstep ih => exact ⟨ih.1.step hstep, versions_of_step hstep ih.2⟩
  obtain ⟨commit', snapshotBytes', manifest', hid', hrange', -, hcopy'⟩ :=
    versionsHeld_of_reachable hF hJ hlater.1 hw.2 commit.id hlater.2
  obtain ⟨rfl, rfl, rfl⟩ := hcopy.ext hF hcopy' hid' hrange hrange'
  exact hcopy.answers_eq hF hcopy' hcall

/-- The verification of a version that was ever `HEAD` ends well, however pushes, restores and
failures come between its reads. -/
theorem published_verifies (hF : F.Lawful) (hJ : F.ReadsBack limit)
    {w : World (Shared Client Bytes Hash) Nat (Running Client Bytes Hash)}
    (hr : (clients F (kernelReaders F C problems info) limits).Reachable .start w)
    (hm : w.shared.provider.floor = .missing) {id : Hash} (hid : id ∈ w.shared.versions) :
    Meets (Unpruned F (kernelReaders F C problems info) limits) (Asks (worldAnswers F))
      (fun _ _ => True) (fun result _ => result = .ok ())
      (verifyCommitCopy F (kernelReaders F C problems info) id) w := by
  obtain ⟨commit, snapshotBytes, manifest, rfl, hrange, -, hcopy⟩ :=
    versionsHeld_of_reachable hF hJ hr hm id hid
  have heval : (verifyCommitCopy F (kernelReaders F C problems info) commit.id).eval
      (worldAnswers F w) = .ok () := verifyCommitCopy_ok_iff.mpr ⟨commit, _, _, rfl, hcopy⟩
  have hasked : (verifyCommitCopy F (kernelReaders F C problems info) commit.id).asked
      (worldAnswers F w) = _ := asked_verifyCommitCopy hcopy
  rw [← heval]
  refine meets_of_asked (fun _ _ _ h h' => ⟨h.1.trans h'.1, h'.2⟩) fun w' hw' call hcall => ?_
  rw [hasked] at hcall
  exact answers_of_unpruned hF hJ hr hw' hid hrange hcopy hcall

end Runs

/-! Retention passes. -/

section Passes
variable [DecidableEq Hash] {F : Formats Bytes Hash} {R : Readers Bytes Hash}
variable {rule : RetentionRule} {roots : RetentionRoots Hash} {history : List (Commit Hash)}
variable {p : FilesystemProvider Bytes Hash}

/-- A commit that a pass keeps, it keeps with all its objects. -/
theorem keepsBlob_of_copy {commit : Commit Hash} {snapshotBytes : Bytes}
    {manifest : SampleManifest Hash} (h : CopyOf F R (p.answers F) commit snapshotBytes manifest)
    (hk : FilesystemProvider.KeepsCommit F rule roots p history commit.id) {hash : Hash}
    (hmem : hash ∈ FilesystemProvider.commitBlobs commit manifest) :
    FilesystemProvider.KeepsBlob F rule roots p history hash := by
  have hread : p.readCommit F {} commit.id = .ok commit := h.found
  obtain ⟨bytes, hserves, hdecode⟩ := h.samples
  have hmanifest : p.readManifest F {} commit = .ok manifest :=
    FilesystemProvider.readManifest_ok_iff.mpr ⟨bytes, hserves.1, hdecode⟩
  simp only [FilesystemProvider.commitBlobs, List.mem_append, List.mem_cons, List.not_mem_nil,
    or_false, Option.mem_toList] at hmem
  rcases hmem with ((rfl | rfl) | hmetadata) | hentry
  · exact .snapshot hk hread
  · exact .samples hk hread
  · exact .metadata hk hread hmetadata
  · obtain ⟨entry, he, rfl⟩ := List.mem_map.mp hentry
    exact .entry hk hread hmanifest he

/-- A pass, whether it ends well or not, leaves verifiable what it promised to keep: retained
versions, protected commits and their ancestors down to the floor. -/
theorem verified_survives_pass (io : Faults Hash) (now grace : Nat) {id : Hash}
    (hv : p.visibleCommits F {} = .ok history)
    (hk : FilesystemProvider.KeepsCommit F rule roots p history id)
    (h : (verifyCommitCopy F R id).eval (p.answers F) = .ok ()) :
    (verifyCommitCopy F R id).eval
      ((p.pruneHistoryWithGrace F io rule roots now grace).provider.answers F) = .ok () := by
  rcases FilesystemProvider.pruneHistoryWithGrace_cases F io rule roots now grace p with
    ⟨e, he⟩ | ⟨-, hnone⟩ | ⟨plan, hplan, hsome⟩
  · rw [he]
    exact h
  · rw [hnone]
    exact h
  · rw [hsome]
    obtain ⟨history', hfor⟩ := FilesystemProvider.planFor_of_ok hplan
    obtain rfl : history' = history := Except.ok.inj (hfor.visible.symm.trans hv)
    have hkept : FilesystemProvider.KeptAsPromised F rule roots history' p
        (FilesystemProvider.swept F io now grace plan p) :=
      FilesystemProvider.keptAsPromised_swept hfor now grace
    obtain ⟨commit, snapshotBytes, manifest, rfl, hcopy⟩ := verifyCommitCopy_ok_iff.mp h
    rw [← h]
    refine Prog.eval_congr fun call hcall => ?_
    rw [asked_verifyCommitCopy hcopy] at hcall
    rcases List.mem_cons.mp hcall with rfl | hcall
    · obtain ⟨bytes, decoded, hget, hdecode, heq⟩ :=
        FilesystemProvider.readCommit_ok_iff.mp hcopy.found
      exact (FilesystemProvider.readCommit_ok_iff.mpr
        ⟨bytes, decoded, hkept.commits _ _ hk hget, hdecode, heq⟩).trans hcopy.found.symm
    · obtain ⟨hash, hmem, rfl⟩ := List.mem_map.mp hcall
      obtain ⟨bytes, hserves⟩ := hcopy.serves hmem
      exact (hkept.blobs hash bytes (keepsBlob_of_copy hcopy hk hmem) hserves.1).trans
        hserves.1.symm

end Passes

/-! A song with a take. -/

/-- A pass that keeps one version, over the song after two pushes. -/
abbrev songPass : Pass Term := ⟨{}, .latest 1, ⟨[], []⟩, 4000, 0⟩

theorem dawDiverged_unpruned : (dawDiverged []).provider.floor = .missing := by decide +kernel

/-- Both versions of the song are verified. -/
theorem published_verifies_song : ∃ threads,
    (clients symbolicJson dawReaders anything).Reachable .start ⟨dawDiverged [], threads⟩ ∧
      (dawDiverged []).versions.length = 2 ∧ ∀ id ∈ (dawDiverged []).versions,
        Meets (Unpruned symbolicJson dawReaders anything) (Asks (worldAnswers symbolicJson))
          (fun _ _ => True) (fun result _ => result = .ok ())
          (verifyCommitCopy symbolicJson dawReaders id) ⟨dawDiverged [], threads⟩ := by
  obtain ⟨threads, hr⟩ := dawDiverged_run []
  refine ⟨threads, hr, by decide +kernel, fun id hid => ?_⟩
  exact published_verifies symbolicJson_lawful symbolicJson_readsBack hr dawDiverged_unpruned hid

/-- Whether the verification of every version among these ends well. -/
def allVerify (p : FilesystemProvider Term Term) (ids : List Term) : Bool :=
  ids.all fun id => ((verifyCommitCopy symbolicJson dawReaders id).eval (p.answers symbolicJson)).isOk

theorem verifies_of_all {p : FilesystemProvider Term Term} {ids : List Term}
    (h : allVerify p ids = true) {id : Term} (hid : id ∈ ids) :
    (verifyCommitCopy symbolicJson dawReaders id).eval (p.answers symbolicJson) = .ok () := by
  have hok := List.all_eq_true.mp h id hid
  cases hresult : (verifyCommitCopy symbolicJson dawReaders id).eval (p.answers symbolicJson) with
  | ok => rfl
  | error e =>
    rw [hresult] at hok
    cases hok

/-- A pass that keeps only the newest version leaves it verifiable. -/
theorem verified_survives_pass_song : ∃ id ∈ (dawDiverged []).versions,
    (verifyCommitCopy symbolicJson dawReaders id).eval
      (((dawDiverged []).provider.pruneHistoryWithGrace symbolicJson {} (.latest 1) ⟨[id], []⟩ 4000
        0).provider.answers symbolicJson) = .ok () := by
  obtain ⟨history, hv⟩ := exists_of_isOk
    (show ((dawDiverged []).provider.visibleCommits symbolicJson {}).isOk = true by decide +kernel)
  obtain ⟨id, hid⟩ := Option.isSome_iff_exists.mp
    (show (dawDiverged []).versions.head?.isSome = true by decide +kernel)
  have hmem := List.mem_of_mem_head? hid
  refine ⟨id, hmem, verified_survives_pass {} 4000 0 hv ?_ ?_⟩
  · exact .root (List.mem_append_right _ (List.mem_singleton_self id))
  · exact verifies_of_all (by decide +kernel) hmem

end AuruPm
