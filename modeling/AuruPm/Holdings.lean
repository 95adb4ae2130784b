import AuruPm.Mirror
import Mathlib.Data.Set.Insert

/-!
# What providers hold

A provider is taken by the objects it holds. `StoreStep` is what is relied on: a put that is
answered has stored its object, a put that fails may have, a presence probe tells the truth, and
what is read is what was asked for. A drain moves between several providers and one sidecar.
-/

namespace AuruPm

set_option autoImplicit false

open SortedAssoc Threads

variable {Client Bytes Hash : Type}

structure Holdings (Hash : Type) where
  blobs : Set Hash
  commits : Set (Commit Hash)
  /-- Blobs whose last presence probe was not answered. -/
  unanswered : Set Hash

def Holdings.empty : Holdings Hash := ⟨∅, ∅, ∅⟩

def Holdings.put (s : Holdings Hash) (hash : Hash) : Holdings Hash :=
  { s with blobs := insert hash s.blobs }

/-- The commit is there with everything it names. -/
def Holdings.Serves (s : Holdings Hash) (commit : Commit Hash) (manifest : SampleManifest Hash) :
    Prop :=
  commit ∈ s.commits ∧ ∀ hash ∈ FilesystemProvider.commitBlobs commit manifest, hash ∈ s.blobs

section Steps
variable (F : Formats Bytes Hash)

inductive StoreStep : Holdings Hash → (call : StoreCall Bytes Hash) → Except Error call.Answer →
    Holdings Hash → Prop
  | probed {s : Holdings Hash} {hashes : List Hash} {present : List Bool}
      (h : List.Forall₂ (fun hash here => here = true ↔ hash ∈ s.blobs) hashes present) :
      StoreStep s (.hasBlobs hashes) (.ok present)
        { s with unanswered := s.unanswered \ {hash | hash ∈ hashes} }
  | unanswered {s : Holdings Hash} (hashes : List Hash) (e : Error) :
      StoreStep s (.hasBlobs hashes) (.error e)
        { s with unanswered := s.unanswered ∪ {hash | hash ∈ hashes} }
  | gotBlob {s : Holdings Hash} {bytes : Bytes} {hash : Hash} (h : F.contentHash bytes = hash) :
      StoreStep s (.getBlob hash) (.ok bytes) s
  | gotCommit {s : Holdings Hash} {commit : Commit Hash} {id : Hash} (h : commit.id = id) :
      StoreStep s (.getCommit id) (.ok commit) s
  | stored {s : Holdings Hash} {hash : Hash} {bytes : Bytes} (h : F.contentHash bytes = hash) :
      StoreStep s (.putBlob hash bytes) (.ok ()) (s.put hash)
  | storedUnanswered {s : Holdings Hash} (hash : Hash) (bytes : Bytes) (e : Error) :
      StoreStep s (.putBlob hash bytes) (.error e) (s.put hash)
  | storedCommit {s : Holdings Hash} {commit : Commit Hash} (h : commit.Genuine F) :
      StoreStep s (.putCommit commit) (.ok ()) { s with commits := insert commit s.commits }
  | storedCommitUnanswered {s : Holdings Hash} (commit : Commit Hash) (e : Error) :
      StoreStep s (.putCommit commit) (.error e) { s with commits := insert commit s.commits }
  | advance {s : Holdings Hash} (fromHead : Option Hash) (toHead : Hash)
      (r : Except Error (HeadAdvance Hash)) : StoreStep s (.advanceHead fromHead toHead) r s
  | failed {s : Holdings Hash} (call : StoreCall Bytes Hash) (e : Error)
      (h : ∀ hashes, call ≠ .hasBlobs hashes) : StoreStep s call (.error e) s

/-- The providers by name, and the sidecar beside them. -/
structure Depot (Hash : Type) where
  sidecar : Sidecar Hash
  store : String → Holdings Hash

inductive DrainStep : Depot Hash → (call : DrainCall Bytes Hash) → Except Error call.Answer →
    Depot Hash → Prop
  | loaded (s : Depot Hash) : DrainStep s .loadSidecar (.ok s.sidecar) s
  | wrote (s : Depot Hash) (stillPending : List Hash) :
      DrainStep s (.writePending stillPending) (.ok ())
        { s with sidecar := { s.sidecar with pendingPushes := stillPending } }
  | onProvider {s : Depot Hash} {provider : String} {call : StoreCall Bytes Hash}
      {r : Except Error call.Answer} {held : Holdings Hash}
      (h : StoreStep F (s.store provider) call r held) :
      DrainStep s (.onProvider provider call) r
        { s with store := Function.update s.store provider held }
  | notLoaded (s : Depot Hash) (e : Error) : DrainStep s .loadSidecar (.error e) s
  | notWritten (s : Depot Hash) (stillPending : List Hash) (e : Error) :
      DrainStep s (.writePending stillPending) (.error e) s

end Steps

/-! What a push hands over. -/

/-- Everything the commit names, metadata apart, is among what is handed over with it. -/
structure Delivery.Complete (F : Formats Bytes Hash) (d : Delivery Bytes Hash) : Prop where
  genuine : d.commit.Genuine F
  snapshot : F.contentHash d.snapshotBytes = d.commit.tree.snapshot
  manifest : F.encodeManifest d.manifest = .ok d.manifestBytes
  samples : F.contentHash d.manifestBytes = d.commit.tree.samples
  entries : ∀ e ∈ d.manifest.entries, e.hash ∈ d.sampleBlobs.map Prod.fst
  blobs : ∀ b ∈ d.sampleBlobs, F.contentHash b.2 = b.1

structure Push.Bundle.Covers (F : Formats Bytes Hash) (bundle : Push.Bundle Bytes Hash) : Prop where
  entries : ∀ e ∈ bundle.manifest.entries, e.hash ∈ bundle.blobs.map Prod.fst
  blobs : ∀ b ∈ bundle.blobs, F.contentHash b.2 = b.1

section Produced
variable {F : Formats Bytes Hash} {R : Readers Bytes Hash}

theorem mem_insertEntry {e entry : SampleEntry Hash} {entries : List (SampleEntry Hash)}
    (h : e ∈ insertEntry entry entries) : e = entry ∨ e ∈ entries := by
  induction entries with
  | nil => exact Or.inl (List.mem_singleton.mp h)
  | cons d entries ih =>
    unfold insertEntry at h
    split at h
    · exact List.mem_cons.mp h
    · split at h
      · rcases List.mem_cons.mp h with rfl | h
        · exact Or.inl rfl
        · exact Or.inr (List.mem_cons_of_mem _ h)
      · rcases List.mem_cons.mp h with rfl | h
        · exact Or.inr List.mem_cons_self
        · rcases ih h with rfl | h
          · exact Or.inl rfl
          · exact Or.inr (List.mem_cons_of_mem _ h)

theorem Push.Bundle.Covers.add {bundle : Push.Bundle Bytes Hash} (h : bundle.Covers F)
    {entry : SampleEntry Hash} {bytes : Bytes} (hb : F.contentHash bytes = entry.hash) :
    (bundle.add entry bytes).Covers F where
  entries e he := by
    simp only [Push.Bundle.add, List.map_append, List.mem_append]
    rcases mem_insertEntry he with rfl | he
    · exact Or.inr (List.mem_singleton.mpr rfl)
    · exact Or.inl (h.entries e he)
  blobs b hb' := by
    simp only [Push.Bundle.add, List.mem_append, List.mem_singleton] at hb'
    rcases hb' with hb' | rfl
    · exact h.blobs b hb'
    · exact hb

theorem bundleAssets_covers {assets : List (PlannedAsset Bytes)}
    {bundle bundle' : Push.Bundle Bytes Hash} (h : bundle.Covers F)
    (hr : (Push.bundleAssets F assets bundle).Returns bundle') : bundle'.Covers F := by
  induction assets generalizing bundle with
  | nil =>
    obtain rfl : bundle = bundle' := hr
    exact h
  | cons asset rest ih =>
    unfold Push.bundleAssets at hr
    split at hr
    · have hsame : ({ bundle with unavailable := bundle.unavailable ++ [asset.bundlePath] } :
          Push.Bundle Bytes Hash).Covers F := ⟨h.entries, h.blobs⟩
      exact ih hsame hr
    · simp only [Prog.returns_bind] at hr
      obtain ⟨_, -, hr⟩ := hr
      exact ih (h.add rfl) hr

variable [DecidableEq Hash]

theorem matchedBy_hash {resource : SnapshotResource Bytes Hash} {bytes : Bytes}
    (h : Push.SnapshotResource.matchedBy F resource bytes = true) :
    F.contentHash bytes = resource.hash := by
  simp only [Push.SnapshotResource.matchedBy, Bool.and_eq_true, decide_eq_true_eq] at h
  exact h.1

theorem bundleResource_hash {given : List (String × Bytes)} {resource : SnapshotResource Bytes Hash}
    {bytes : Bytes} (hr : (Push.bundleResource F given resource).Returns bytes) :
    F.contentHash bytes = resource.hash := by
  unfold Push.bundleResource at hr
  simp only at hr
  split at hr
  · rename_i candidate hc
    simp only [Prog.returns_bind, Prog.pure_eq, Prog.returns_done] at hr
    obtain ⟨_, -, rfl⟩ := hr
    rcases Option.or_eq_some_iff.mp hc with hc | ⟨-, hc⟩
    · exact matchedBy_hash (Option.filter_eq_some_iff.mp hc).2
    · exact matchedBy_hash (Option.filter_eq_some_iff.mp hc).2
  · simp only [Prog.returns_bind] at hr
    obtain ⟨found, -, hr⟩ := hr
    split at hr
    · exact absurd hr id
    · rename_i hm
      obtain rfl : found = bytes := hr
      simp only [Bool.not_eq_true, Bool.not_eq_false'] at hm
      exact matchedBy_hash hm

theorem bundleResources_covers {given : List (String × Bytes)}
    {resources : List (SnapshotResource Bytes Hash)} {bundle bundle' : Push.Bundle Bytes Hash}
    (h : bundle.Covers F) (hr : (Push.bundleResources F given resources bundle).Returns bundle') :
    bundle'.Covers F := by
  induction resources generalizing bundle with
  | nil =>
    obtain rfl : bundle = bundle' := hr
    exact h
  | cons resource rest ih =>
    simp only [Push.bundleResources, Prog.returns_bind] at hr
    obtain ⟨bytes, hbytes, hr⟩ := hr
    exact ih (h.add (bundleResource_hash hbytes)) hr

theorem buildSampleManifest_covers {request : PushRequest Client Bytes Hash} {snapshot : Value}
    {bundle : Push.Bundle Bytes Hash}
    (hr : (Push.buildSampleManifest F R request snapshot).Returns bundle) : bundle.Covers F := by
  simp only [Push.buildSampleManifest, Prog.returns_bind, Prog.pure_eq, Prog.returns_done] at hr
  obtain ⟨assets, hassets, resources, -, whole, hwhole, rfl⟩ := hr
  have hstart : (⟨⟨[]⟩, [], (request.planAssets snapshot).unavailable⟩ :
      Push.Bundle Bytes Hash).Covers F :=
    ⟨fun _ h => absurd h List.not_mem_nil, fun _ h => absurd h List.not_mem_nil⟩
  have h := bundleResources_covers (bundleAssets_covers hstart hassets) hwhole
  exact ⟨h.entries, h.blobs⟩

omit [DecidableEq Hash] in
theorem computeCommitId_id (hF : F.Lawful) (commit : Commit Hash) (id : Hash) :
    FilesystemProvider.computeCommitId F { commit with id := id } =
      FilesystemProvider.computeCommitId F commit :=
  congrArg (Except.map F.contentHash) (hF.encode_id commit id)

omit [DecidableEq Hash] in
theorem writeCommitToPrimary_spec (hF : F.Lawful) {request : PushRequest Client Bytes Hash}
    {prepared : Push.Prepared Bytes Hash} {manifest : SampleManifest Hash} {commit : Commit Hash}
    (hr : (Push.writeCommitToPrimary F R request prepared manifest).Returns commit) :
    commit.Genuine F ∧ commit.tree.snapshot = F.contentHash prepared.snapshot ∧
      commit.parents = prepared.parents ∧ ∃ bytes, F.encodeManifest manifest = .ok bytes ∧
        commit.tree.samples = F.contentHash bytes := by
  simp only [Push.writeCommitToPrimary, Prog.returns_bind, Prog.returns_ofExcept] at hr
  obtain ⟨-, -, bytes, hbytes, -, -, metadata, -, now, -, id, hid, -, -, answer, -, hr⟩ := hr
  cases answer with
  | conflict current => exact False.elim hr
  | advanced =>
    obtain rfl := hr
    refine ⟨⟨?_, ?_⟩, rfl, rfl, bytes, wrapped_ok hbytes, rfl⟩
    · have := now.isLt
      constructor <;> simp only <;> omega
    · have h := (computeCommitId_id hF _ id).trans (wrapped_ok hid)
      exact h

theorem produces_complete (hF : F.Lawful) {request : PushRequest Client Bytes Hash}
    {d : Delivery Bytes Hash} (h : Push.Produces F R request d) : d.Complete F := by
  simp only [Push.Produces, Push.upToMirrors, Prog.returns_bind] at h
  obtain ⟨remoteHead, -, sidecar, -, reconciled, -, h⟩ := h
  cases reconciled with
  | stopped outcome => cases h
  | ready prepared =>
    simp only [Prog.returns_bind, Prog.pure_eq, Prog.returns_done, Sum.inr.injEq,
      Push.commitToPrimary, Prog.returns_ofExcept] at h
    obtain ⟨d', ⟨snapshot, -, -, -, bundle, hbundle, commit, hcommit, bytes, hbytes, rfl⟩, rfl⟩ := h
    have hcovers := buildSampleManifest_covers hbundle
    obtain ⟨hgenuine, hsnapshot, -, bytes', hbytes', hsamples⟩ := writeCommitToPrimary_spec hF hcommit
    have hb := wrapped_ok hbytes
    obtain rfl : bytes = bytes' := Except.ok.inj (hb.symm.trans hbytes')
    exact ⟨hgenuine, hsnapshot.symm, hb, hsamples.symm, hcovers.entries, hcovers.blobs⟩

end Produced

end AuruPm
