import AuruPm.Objects
import AuruPm.Symbolic
import Mathlib.Data.Set.Insert

/-!
# Pushes that race retention

A retention pass taken file by file. The repository lock keeps advances and other passes out
from its plan to its end; puts come in between. `HEAD` advances to a commit whose objects were
put only while they are all there, and no pass takes them away while it is `HEAD`.
-/

namespace AuruPm

set_option autoImplicit false

open SortedAssoc

variable {Bytes Hash : Type}

/-- How far a pass that holds the repository lock has come. -/
inductive PassPhase (Hash : Type) where
  | planned (plan : FilesystemProvider.Plan Hash)
  | sweepingBlobs (plan : FilesystemProvider.Plan Hash)
  | sweepingCommits (plan : FilesystemProvider.Plan Hash)

def PassPhase.plan : PassPhase Hash → FilesystemProvider.Plan Hash
  | .planned plan => plan
  | .sweepingBlobs plan => plan
  | .sweepingCommits plan => plan

/-- A folder, the pass that holds its lock, and what was put so far. -/
structure Yard (Bytes Hash : Type) where
  provider : FilesystemProvider Bytes Hash
  pass : Option (PassPhase Hash)
  blobsPut : Set Hash
  commitsPut : Set Hash

/-- A folder that nobody has called yet. -/
def Yard.untouched (p : FilesystemProvider Bytes Hash) : Yard Bytes Hash := ⟨p, none, ∅, ∅⟩

section Steps
variable [DecidableEq Hash] (F : Formats Bytes Hash)

/-- The sweep of a store removes one file. -/
inductive Cas.Removes (reachable : List Hash) : Cas Bytes Hash → Cas Bytes Hash → Prop
  | removed (faults : CasFaults Hash) (now grace : Nat) (before after : Cas Bytes Hash) {hash : Hash}
      {file : StoredFile Bytes} (h : Cas.expired faults now grace reachable hash file = true) :
      Removes reachable (before ++ (hash, file) :: after) (before ++ after)

/-- An `advance_head` that answers `Advanced`. -/
inductive Advances (toHead : Hash) : Yard Bytes Hash → Yard Bytes Hash → Prop
  | advanced {s : Yard Bytes Hash} {io : Faults Hash} {fromHead : Option Hash}
      {p : FilesystemProvider Bytes Hash} (hfree : s.pass = none)
      (h : s.provider.advanceHead F io fromHead toHead = .ok (p, .advanced)) :
      Advances toHead s { s with provider := p }

/-- One step of any client or of a pass. A pass can end early at any point. -/
inductive RaceStep : Yard Bytes Hash → Yard Bytes Hash → Prop
  | putBlob {s : Yard Bytes Hash} {now : Nat} {hash : Hash} {bytes : Bytes}
      {p : FilesystemProvider Bytes Hash} (h : s.provider.putBlob F now hash bytes = .ok p) :
      RaceStep s { s with provider := p, blobsPut := insert hash s.blobsPut }
  | putCommit {s : Yard Bytes Hash} {now : Nat} {commit : Commit Hash}
      {p : FilesystemProvider Bytes Hash} (h : s.provider.putCommit F now commit = .ok p) :
      RaceStep s { s with provider := p, commitsPut := insert commit.id s.commitsPut }
  | advance {s s' : Yard Bytes Hash} {toHead : Hash} (h : Advances F toHead s s') : RaceStep s s'
  -- under the lock a plan reads only files that stay, so its reads count as one step
  | plan {s : Yard Bytes Hash} {io : Faults Hash} {rule : RetentionRule} {roots : RetentionRoots Hash}
      {plan : FilesystemProvider.Plan Hash} (hfree : s.pass = none)
      (h : s.provider.planRetention F io rule roots = .ok (some plan)) :
      RaceStep s { s with pass := some (.planned plan) }
  | writeFloor {s : Yard Bytes Hash} {plan : FilesystemProvider.Plan Hash}
      (h : s.pass = some (.planned plan)) :
      RaceStep s { s with
        provider := { s.provider with floor := .names plan.floor }
        pass := some (.sweepingBlobs plan) }
  | removeBlob {s : Yard Bytes Hash} {plan : FilesystemProvider.Plan Hash} {blobs : Cas Bytes Hash}
      (h : s.pass = some (.sweepingBlobs plan))
      (hremove : Cas.Removes plan.blobs s.provider.blobs blobs) :
      RaceStep s { s with provider := { s.provider with blobs := blobs } }
  | sweptBlobs {s : Yard Bytes Hash} {plan : FilesystemProvider.Plan Hash}
      (h : s.pass = some (.sweepingBlobs plan)) :
      RaceStep s { s with pass := some (.sweepingCommits plan) }
  | removeCommit {s : Yard Bytes Hash} {plan : FilesystemProvider.Plan Hash}
      {commits : Cas Bytes Hash} (h : s.pass = some (.sweepingCommits plan))
      (hremove : Cas.Removes (plan.graph.map Commit.id) s.provider.commits commits) :
      RaceStep s { s with provider := { s.provider with commits := commits } }
  | unlock (s : Yard Bytes Hash) : RaceStep s { s with pass := none }

/-- Any interleaving. -/
abbrev Races : Yard Bytes Hash → Yard Bytes Hash → Prop := Relation.ReflTransGen (RaceStep F)

/-- Any interleaving in which `HEAD` stays where it is. -/
abbrev RacesAt (head : Hash) : Yard Bytes Hash → Yard Bytes Hash → Prop :=
  Relation.ReflTransGen fun s s' => RaceStep F s s' ∧ s'.provider.head = .names head

/-- The commit of an id and its manifest, by the bytes that hash so. -/
def Describes (id : Hash) (commit : Commit Hash) (manifest : SampleManifest Hash) : Prop :=
  ∃ bytes manifestBytes, F.contentHash bytes = id ∧
    (F.decodeCommit bytes).map (fun c => { c with id := id }) = .ok commit ∧
    F.contentHash manifestBytes = commit.tree.samples ∧ F.decodeManifest manifestBytes = .ok manifest

/-- The commit and everything that it names was put at some time. -/
def Yard.AllPut (s : Yard Bytes Hash) (id : Hash) (commit : Commit Hash)
    (manifest : SampleManifest Hash) : Prop :=
  id ∈ s.commitsPut ∧ ∀ hash ∈ FilesystemProvider.commitBlobs commit manifest, hash ∈ s.blobsPut

/-- The commit and everything that it names is there. -/
structure FilesystemProvider.Present (p : FilesystemProvider Bytes Hash) (id : Hash)
    (commit : Commit Hash) (manifest : SampleManifest Hash) : Prop where
  stored : p.commits.has id = true
  blobs : ∀ hash ∈ commitBlobs commit manifest, p.blobs.has hash = true

/-- Before there is a floor no file was swept, and what was put is there. -/
structure Unswept (s : Yard Bytes Hash) : Prop where
  early : s.provider.floor = .missing → ∀ phase, s.pass = some phase → ∃ plan, phase = .planned plan
  blobs : s.provider.floor = .missing → ∀ hash ∈ s.blobsPut, s.provider.blobs.has hash = true
  commits : s.provider.floor = .missing → ∀ id ∈ s.commitsPut, s.provider.commits.has id = true

/-- The commit is there with everything it names, and the pass under way leaves it so. -/
structure Guarded (id : Hash) (commit : Commit Hash) (manifest : SampleManifest Hash)
    (s : Yard Bytes Hash) : Prop where
  present : s.provider.Present id commit manifest
  keepsCommit : ∀ phase, s.pass = some phase → id ∈ phase.plan.graph.map Commit.id
  keepsBlobs : ∀ phase, s.pass = some phase → ∀ hash ∈ FilesystemProvider.commitBlobs commit manifest,
    hash ∈ phase.plan.blobs

end Steps

/-! Single files. -/

namespace Cas

variable [DecidableEq Hash] {F : Formats Bytes Hash} {cas cas' : Cas Bytes Hash} {hash k : Hash}

theorem has_iff : cas.has hash = true ↔ hash ∈ cas.map Prod.fst := get?_isSome_iff

theorem has_put_self {now : Nat} {bytes : Bytes} (h : cas.put F now hash bytes = .ok cas') :
    cas'.has hash = true := by
  obtain ⟨-, ⟨rfl, file, hf⟩ | ⟨rfl, -⟩⟩ := put_cases h
  · simp [has, hf]
  · simp [has_iff]

theorem has_put {now : Nat} {bytes : Bytes} (h : cas.put F now hash bytes = .ok cas')
    (hk : cas.has k = true) : cas'.has k = true := by
  obtain ⟨-, ⟨rfl, -⟩ | ⟨rfl, -⟩⟩ := put_cases h
  · exact hk
  · rw [has_iff] at hk ⊢
    exact List.mem_cons_of_mem _ hk

/-- What is reachable is not removed. -/
theorem Removes.has {reachable : List Hash} (h : Removes reachable cas cas') (hk : k ∈ reachable)
    (hhas : cas.has k = true) : cas'.has k = true := by
  cases h with
  | @removed faults now grace before after hash file hexpired =>
    have hne : k ≠ hash := by
      rintro rfl
      simp only [expired, Bool.and_eq_true, decide_eq_true_eq] at hexpired
      exact hexpired.1 hk
    simp only [has_iff, List.map_append, List.map_cons, List.mem_append, List.mem_cons] at hhas ⊢
    rcases hhas with hbefore | heq | hafter
    · exact Or.inl hbefore
    · exact absurd heq hne
    · exact Or.inr hafter

theorem Removes.prepend {reachable : List Hash} (kept : Cas Bytes Hash) (h : Removes reachable cas cas') :
    Removes reachable (kept ++ cas) (kept ++ cas') := by
  cases h with
  | removed faults now grace before after hexpired =>
    rw [← List.append_assoc, ← List.append_assoc]
    exact .removed faults now grace (kept ++ before) after hexpired

/-- A whole sweep removes files one by one. -/
theorem gc_removes (F : Formats Bytes Hash) (faults : CasFaults Hash) (now grace : Nat)
    (reachable : List Hash) (cas : Cas Bytes Hash) (report : GcReport) :
    Relation.ReflTransGen (Removes reachable) cas
      (gc F faults now grace reachable cas report).1 := by
  induction cas generalizing report with
  | nil => exact .refl
  | cons entry files ih =>
    obtain ⟨hash, file⟩ := entry
    have hleft : ∀ report, Relation.ReflTransGen (Removes reachable) ((hash, file) :: files)
        ((hash, file) :: (gc F faults now grace reachable files report).1) := fun report =>
      Relation.ReflTransGen.lift (fun left => (hash, file) :: left)
        (fun _ _ h => Removes.prepend [(hash, file)] h) _ _ (ih report)
    simp only [gc]
    split
    · exact .refl
    · split
      · rename_i hexpired
        split
        · exact hleft _
        · exact .head (.removed faults now grace [] files hexpired) (ih _)
      · exact hleft _

end Cas

/-! What a plan keeps. -/

namespace FilesystemProvider

variable [DecidableEq Hash] {F : Formats Bytes Hash} {io : Faults Hash}
variable {p : FilesystemProvider Bytes Hash} {rule : RetentionRule} {roots : RetentionRoots Hash}
variable {plan : Plan Hash}

/-- A planned commit was read with its manifest, and all that it names is kept. -/
theorem graph_blobs (h : p.planRetention F io rule roots = .ok (some plan)) {commit : Commit Hash}
    (hc : commit ∈ plan.graph) : ∃ manifest, p.readManifest F io commit = .ok manifest ∧
      ∀ hash ∈ commitBlobs commit manifest, hash ∈ plan.blobs := by
  obtain ⟨-, history, -, h⟩ := planRetention_ok_iff.mp h
  split at h
  · cases h
  · obtain ⟨graph, blobs, -, hb, heq⟩ := h
    cases heq
    unfold reachableBlobs at hb
    simp only [bind_ok_iff, pure, Except.pure, Except.ok.injEq] at hb
    obtain ⟨hashes, hh, rfl⟩ := hb
    obtain ⟨manifest, hm, hall⟩ := reachableFrom_ok hh hc
    exact ⟨manifest, hm, fun hash hx => List.mem_append_left _ (hall hash hx)⟩

/-- `HEAD` is read into every plan. -/
theorem head_in_graph (h : p.planRetention F io rule roots = .ok (some plan)) {id : Hash}
    (hhead : p.head = .names id) :
    ∃ commit ∈ plan.graph, p.readCommit F io id = .ok commit := by
  obtain ⟨-, history, hv, h⟩ := planRetention_ok_iff.mp h
  split at h
  · cases h
  · rename_i last hlast
    obtain ⟨graph, blobs, hg, -, heq⟩ := h
    cases heq
    obtain ⟨floor, head, -, hh, hw⟩ := visibleCommits_ok_iff.mp hv
    have hread : ∀ commit ∈ retainedPrefix rule history,
        p.readCommit F io commit.id = .ok commit :=
      fun commit hc => read_of_firstParents hw commit (List.mem_of_mem_take hc)
    have hstart : head = some id := by
      have hhealthy := readHead_healthy hh
      simp only [readHead, hhead, orFail] at hhealthy
      cases hhealthy
      rfl
    subst hstart
    have hfirst : ∃ first rest, history = first :: rest ∧ first.id = id := by
      cases firstParents_healthy hw with
      | stop hr _ => exact ⟨_, _, rfl, readCommit_id _ _ hr⟩
      | cons hr _ _ => exact ⟨_, _, rfl, readCommit_id _ _ hr⟩
    obtain ⟨first, rest, rfl, hid⟩ := hfirst
    have hretained : first ∈ retainedPrefix rule (first :: rest) := by
      unfold retainedPrefix at hlast ⊢
      cases hlen : rule.retainedPrefixLen ((first :: rest).map Commit.timestamp) with
      | zero =>
        rw [hlen] at hlast
        cases hlast
      | succ n => exact List.mem_cons_self
    obtain ⟨commit, hc, hcid, hr⟩ := mem_graph hread hg
      (.root (List.mem_append_left _ (List.mem_map_of_mem hretained)))
    rw [hid] at hr
    exact ⟨commit, hc, hr⟩

/-- What is read under an id is what the id describes. -/
theorem readCommit_described (hF : F.Lawful) {id : Hash} {commit found : Commit Hash}
    {manifest : SampleManifest Hash} (hd : Describes F id commit manifest)
    (hr : p.readCommit F io id = .ok found) : found = commit := by
  obtain ⟨bytes, -, hid, hdecode, -⟩ := hd
  obtain ⟨stored, d, hget, hsd, rfl⟩ := readCommit_ok_iff.mp hr
  obtain ⟨file, -, -, hplain⟩ := Cas.get_ok_iff.mp hget
  obtain rfl := hF.hash_injective ((Cas.plain_hash hplain).trans hid.symm)
  rw [hsd] at hdecode
  cases hdecode
  rfl

theorem readManifest_described (hF : F.Lawful) {id : Hash} {commit : Commit Hash}
    {manifest found : SampleManifest Hash} (hd : Describes F id commit manifest)
    (hr : p.readManifest F io commit = .ok found) : found = manifest := by
  obtain ⟨-, bytes, -, -, hsamples, hdecode⟩ := hd
  obtain ⟨stored, hget, hsd⟩ := readManifest_ok_iff.mp hr
  obtain ⟨file, -, -, hplain⟩ := Cas.get_ok_iff.mp hget
  obtain rfl := hF.hash_injective ((Cas.plain_hash hplain).trans hsamples.symm)
  rw [hsd] at hdecode
  cases hdecode
  rfl

end FilesystemProvider

/-! Steps. -/

section Invariants
variable [DecidableEq Hash] {F : Formats Bytes Hash} {s s' s'' : Yard Bytes Hash} {id : Hash}
variable {commit : Commit Hash} {manifest : SampleManifest Hash}

theorem unswept_untouched (p : FilesystemProvider Bytes Hash) : Unswept (.untouched p) :=
  ⟨fun _ _ h => (by cases h), fun _ _ h => False.elim h, fun _ _ h => False.elim h⟩

theorem unswept_step (hs : Unswept s) (h : RaceStep F s s') : Unswept s' := by
  cases h with
  | putBlob hp =>
    obtain ⟨blobs, hput, rfl⟩ := map_ok_iff.mp hp
    refine ⟨hs.early, fun hm hash hmem => ?_, hs.commits⟩
    rcases Set.mem_insert_iff.mp hmem with rfl | hmem
    · exact Cas.has_put_self hput
    · exact Cas.has_put hput (hs.blobs hm hash hmem)
  | putCommit hp =>
    obtain ⟨-, bytes, commits, -, hput, rfl⟩ := FilesystemProvider.putCommit_ok hp
    refine ⟨hs.early, hs.blobs, fun hm id hmem => ?_⟩
    rcases Set.mem_insert_iff.mp hmem with rfl | hmem
    · exact Cas.has_put_self hput
    · exact Cas.has_put hput (hs.commits hm id hmem)
  | advance ha =>
    cases ha with
    | advanced hfree hadv =>
      obtain ⟨-, rfl, -⟩ := FilesystemProvider.advanceHead_spec hadv
      exact ⟨hs.early, hs.blobs, hs.commits⟩
  | plan hfree hplan =>
    refine ⟨fun _ phase hphase => ?_, hs.blobs, hs.commits⟩
    cases hphase
    exact ⟨_, rfl⟩
  | writeFloor => exact ⟨fun hm => (by cases hm), fun hm => (by cases hm), fun hm => (by cases hm)⟩
  | removeBlob hpass =>
    refine ⟨hs.early, fun hm => ?_, hs.commits⟩
    obtain ⟨plan, hp⟩ := hs.early hm _ hpass
    cases hp
  | sweptBlobs hpass =>
    refine ⟨fun hm => ?_, hs.blobs, hs.commits⟩
    obtain ⟨plan, hp⟩ := hs.early hm _ hpass
    cases hp
  | removeCommit hpass =>
    refine ⟨hs.early, hs.blobs, fun hm => ?_⟩
    obtain ⟨plan, hp⟩ := hs.early hm _ hpass
    cases hp
  | unlock => exact ⟨fun _ _ h => (by cases h), hs.blobs, hs.commits⟩

theorem unswept_races (h : Races F s s') (hs : Unswept s) : Unswept s' := by
  induction h with
  | refl => exact hs
  | tail _ hstep ih => exact unswept_step ih hstep

/-- What is put before an advance is there at the advance, or is looked for then. -/
theorem guarded_advance (hF : F.Lawful) (hs : Unswept s) (hd : Describes F id commit manifest)
    (hput : s.AllPut id commit manifest) (h : Advances F id s s') :
    Guarded id commit manifest s' := by
  cases h with
  | advanced hfree hadv =>
    obtain ⟨-, rfl, hvalid⟩ := FilesystemProvider.advanceHead_spec hadv
    refine ⟨?_, fun phase h => ?_, fun phase h => ?_⟩
    · by_cases hm : s.provider.floor = .missing
      · exact ⟨hs.commits hm id hput.1, fun hash hmem => hs.blobs hm hash (hput.2 hash hmem)⟩
      · obtain ⟨found, entries, hr, hmanifest, hall⟩ := hvalid hm
        obtain rfl := FilesystemProvider.readCommit_described hF hd hr
        obtain rfl := FilesystemProvider.readManifest_described hF hd hmanifest
        refine ⟨?_, hall⟩
        exact Cas.has_iff.mpr (FilesystemProvider.readCommit_stored id _ hr)
    · rw [hfree] at h
      cases h
    · rw [hfree] at h
      cases h

/-- As long as it is `HEAD`, a guarded commit stays so. -/
theorem guarded_step (hF : F.Lawful) (hd : Describes F id commit manifest)
    (hhead : s.provider.head = .names id) (hs : Guarded id commit manifest s)
    (h : RaceStep F s s') : Guarded id commit manifest s' := by
  obtain ⟨⟨hstored, hblobs⟩, hkc, hkb⟩ := hs
  cases h with
  | putBlob hp =>
    obtain ⟨blobs, hput, rfl⟩ := map_ok_iff.mp hp
    exact ⟨⟨hstored, fun hash hmem => Cas.has_put hput (hblobs hash hmem)⟩, hkc, hkb⟩
  | putCommit hp =>
    obtain ⟨-, bytes, commits, -, hput, rfl⟩ := FilesystemProvider.putCommit_ok hp
    exact ⟨⟨Cas.has_put hput hstored, hblobs⟩, hkc, hkb⟩
  | advance ha =>
    cases ha with
    | advanced hfree hadv =>
      obtain ⟨-, rfl, -⟩ := FilesystemProvider.advanceHead_spec hadv
      exact ⟨⟨hstored, hblobs⟩, hkc, hkb⟩
  | plan hfree hplan =>
    obtain ⟨found, hmem, hr⟩ := FilesystemProvider.head_in_graph hplan hhead
    obtain ⟨entries, hmanifest, hall⟩ := FilesystemProvider.graph_blobs hplan hmem
    obtain rfl := FilesystemProvider.readCommit_described hF hd hr
    obtain rfl := FilesystemProvider.readManifest_described hF hd hmanifest
    refine ⟨⟨hstored, hblobs⟩, fun phase h => ?_, fun phase h => ?_⟩
    · cases h
      rw [← FilesystemProvider.readCommit_id id _ hr]
      exact List.mem_map_of_mem hmem
    · cases h
      exact hall
  | writeFloor hpass =>
    refine ⟨⟨hstored, hblobs⟩, fun phase h => ?_, fun phase h => ?_⟩
    · cases h
      exact hkc (.planned _) hpass
    · cases h
      exact hkb (.planned _) hpass
  | removeBlob hpass hremove =>
    exact ⟨⟨hstored, fun hash hmem => hremove.has (hkb _ hpass hash hmem) (hblobs hash hmem)⟩,
      hkc, hkb⟩
  | sweptBlobs hpass =>
    refine ⟨⟨hstored, hblobs⟩, fun phase h => ?_, fun phase h => ?_⟩
    · cases h
      exact hkc (.sweepingBlobs _) hpass
    · cases h
      exact hkb (.sweepingBlobs _) hpass
  | removeCommit hpass hremove => exact ⟨⟨hremove.has (hkc _ hpass) hstored, hblobs⟩, hkc, hkb⟩
  | unlock => exact ⟨⟨hstored, hblobs⟩, fun _ h => (by cases h), fun _ h => (by cases h)⟩

theorem advances_head (h : Advances F id s s') : s'.provider.head = .names id := by
  cases h with
  | advanced hfree hadv =>
    obtain ⟨-, rfl, -⟩ := FilesystemProvider.advanceHead_spec hadv
    rfl

theorem guarded_races (hF : F.Lawful) (hd : Describes F id commit manifest)
    (hhead : s.provider.head = .names id) (hs : Guarded id commit manifest s)
    (h : RacesAt F id s s') : Guarded id commit manifest s' := by
  have hboth : Guarded id commit manifest s' ∧ s'.provider.head = .names id := by
    induction h with
    | refl => exact ⟨hs, hhead⟩
    | tail _ hstep ih => exact ⟨guarded_step hF hd ih.2 ih.1 hstep.1, hstep.2⟩
  exact hboth.1

theorem removeBlobs_races {plan : FilesystemProvider.Plan Hash} {blobs : Cas Bytes Hash}
    (hpass : s.pass = some (.sweepingBlobs plan))
    (h : Relation.ReflTransGen (Cas.Removes plan.blobs) s.provider.blobs blobs) :
    Races F s { s with provider := { s.provider with blobs := blobs } } := by
  induction h with
  | refl => exact .refl
  | tail _ hremove ih => exact .tail ih (.removeBlob hpass hremove)

theorem removeCommits_races {plan : FilesystemProvider.Plan Hash} {commits : Cas Bytes Hash}
    (hpass : s.pass = some (.sweepingCommits plan))
    (h : Relation.ReflTransGen (Cas.Removes (plan.graph.map Commit.id)) s.provider.commits commits) :
    Races F s { s with provider := { s.provider with commits := commits } } := by
  induction h with
  | refl => exact .refl
  | tail _ hremove ih => exact .tail ih (.removeCommit hpass hremove)

/-- The deleting half of a pass. -/
theorem sweep_races (F : Formats Bytes Hash) (io : Faults Hash) (now grace : Nat)
    (plan : FilesystemProvider.Plan Hash) (hpass : s.pass = some (.sweepingBlobs plan)) :
    Races F s { s with
      provider := (FilesystemProvider.sweep F io now grace plan s.provider).1, pass := none } := by
  have hblobs := removeBlobs_races (F := F) hpass
    (Cas.gc_removes F io.blobs now grace plan.blobs s.provider.blobs FilesystemProvider.noGc)
  unfold FilesystemProvider.sweep
  simp only
  split
  · exact hblobs.tail (.unlock _)
  · refine (hblobs.tail (.sweptBlobs hpass)).trans (.tail (removeCommits_races rfl ?_) (.unlock _))
    exact Cas.gc_removes F io.commits now grace (plan.graph.map Commit.id) _ FilesystemProvider.noGc

/-- A pass without anything in between is a run of these steps. -/
theorem prune_races (F : Formats Bytes Hash) (hfree : s.pass = none) (io : Faults Hash)
    (rule : RetentionRule) (roots : RetentionRoots Hash) (now grace : Nat) :
    Races F s { s with
      provider := (s.provider.pruneHistoryWithGrace F io rule roots now grace).provider } := by
  unfold FilesystemProvider.pruneHistoryWithGrace
  split
  · exact .refl
  · exact .refl
  · rename_i plan hplan
    split
    · exact .refl
    · refine .head (.plan hfree hplan) (.head (.writeFloor rfl) ?_)
      rw [hfree]
      exact sweep_races F io now grace plan rfl

/-- Whatever folder it starts with and however calls and passes interleave: when `HEAD` advances
to a commit whose objects were all put before, they are there, and stay there while it is
`HEAD`. -/
theorem advanced_stays_present (hF : F.Lawful) {p : FilesystemProvider Bytes Hash}
    (hrun : Races F (.untouched p) s) (hd : Describes F id commit manifest)
    (hput : s.AllPut id commit manifest) (hadv : Advances F id s s') (hlater : RacesAt F id s' s'') :
    s'.provider.Present id commit manifest ∧ s''.provider.Present id commit manifest := by
  have hguarded := guarded_advance hF (unswept_races hrun (unswept_untouched p)) hd hput hadv
  exact ⟨hguarded.present, (guarded_races hF hd (advances_head hadv) hguarded hlater).present⟩

end Invariants

/-! A first version, and a pass after it. -/

/-- A commit of a song without samples. -/
def songCommit : Commit Term :=
  let draft : Commit Term := ⟨.text "", [], ⟨.value (song "C" "Untitled"), .text "end"⟩,
    ⟨"", "", "", none⟩, 1, "Backed up changes", "", Push.auruVersion, 8, none⟩
  { draft with id := Term.ofCommit draft }

/-- The folder once its objects were put. -/
def songPut : FilesystemProvider Term Term :=
  let file := fun bytes => (⟨symbolic.encodeFrame bytes, 1⟩ : StoredFile Term)
  ⟨.missing, .missing, [(.text "end", file (.text "end")),
    (songCommit.tree.snapshot, file songCommit.tree.snapshot)], [(songCommit.id, file songCommit.id)]⟩

def songYard : Yard Term Term :=
  ⟨songPut, none, insert (.text "end") (insert songCommit.tree.snapshot ∅), insert songCommit.id ∅⟩

theorem songYard_races : Races symbolic (.untouched ⟨.missing, .missing, [], []⟩) songYard := by
  have hsnapshot : RaceStep symbolic (.untouched ⟨.missing, .missing, [], []⟩) _ :=
    @RaceStep.putBlob _ _ _ symbolic _ 1 songCommit.tree.snapshot songCommit.tree.snapshot _ rfl
  refine .head hsnapshot (.head (@RaceStep.putBlob _ _ _ _ _ 1 (.text "end") (.text "end") _ rfl) ?_)
  exact .head (@RaceStep.putCommit _ _ _ _ _ 1 songCommit _ rfl) .refl

def songHead : Yard Term Term :=
  { songYard with provider := { songPut with head := .names songCommit.id } }

theorem songHead_advances : Advances symbolic songCommit.id songYard songHead :=
  @Advances.advanced _ _ _ symbolic songCommit.id songYard {} none _ rfl rfl

/-- A pass that keeps the newest version. -/
theorem songHead_pass : ∃ s, RacesAt symbolic songCommit.id songHead s ∧
    s.provider.floor ≠ .missing := by
  have hplanned : ((songHead.provider.planRetention symbolic {} (.latest 1) ⟨[], []⟩).toOption.join).isSome =
      true := by decide +kernel
  obtain ⟨plan, hplan⟩ : ∃ plan,
      songHead.provider.planRetention symbolic {} (.latest 1) ⟨[], []⟩ = .ok (some plan) := by
    cases h : songHead.provider.planRetention symbolic {} (.latest 1) ⟨[], []⟩ with
    | error e =>
      rw [h] at hplanned
      cases hplanned
    | ok plan =>
      rw [h] at hplanned
      exact ⟨plan.get hplanned, congrArg Except.ok (Option.some_get hplanned).symm⟩
  refine ⟨_, .tail (.tail (.tail (.tail .refl ⟨.plan rfl hplan, rfl⟩) ⟨.writeFloor rfl, rfl⟩)
    ⟨.sweptBlobs rfl, rfl⟩) ⟨.unlock _, rfl⟩, ?_⟩
  exact fun h => by cases h

theorem songCommit_described : Describes symbolic songCommit.id songCommit ⟨[]⟩ :=
  ⟨songCommit.id, .text "end", rfl, rfl, rfl, rfl⟩

/-- The song is still there after the pass. -/
theorem advanced_stays_present_song : ∃ s : Yard Term Term,
    s.provider.floor ≠ .missing ∧ s.provider.Present songCommit.id songCommit ⟨[]⟩ := by
  obtain ⟨s, hpass, hfloor⟩ := songHead_pass
  have hput : songYard.AllPut songCommit.id songCommit ⟨[]⟩ := by
    refine ⟨Set.mem_insert _ _, fun hash hmem => ?_⟩
    have hcases : hash = songCommit.tree.snapshot ∨ hash = .text "end" := by
      simpa [FilesystemProvider.commitBlobs, songCommit] using hmem
    rcases hcases with rfl | rfl
    · exact Set.mem_insert_of_mem _ (Set.mem_insert _ _)
    · exact Set.mem_insert _ _
  exact ⟨s, hfloor, (advanced_stays_present symbolic_lawful songYard_races songCommit_described hput
    songHead_advances hpass).2⟩

end AuruPm
