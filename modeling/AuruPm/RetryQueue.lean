import AuruPm.MirrorService
import AuruPm.PushCalls

/-!
# The retry queue

Pushes and drains that share one sidecar. What they call on providers may be answered in any
way; the changes of the sidecar are atomic. An id leaves the queue through a drain that loaded
it and delivered it, as long as no id was queued behind the drain's back.
-/

namespace AuruPm

set_option autoImplicit false

open SortedAssoc Threads

variable {Client Bytes Hash : Type}

/-- An event with the blobs that its provider held right after it. -/
structure Heard (Bytes Hash : Type) where
  event : Event Bytes Hash
  held : Set Hash

/-- A push or a drain under way. A drain carries what it has heard. -/
inductive Worker (Bytes Hash : Type) where
  | push (program : Push Bytes Hash (PushOutcome Hash))
  | drain (providers : List String) (program : Drain Bytes Hash Nat) (heard : List (Heard Bytes Hash))

/-- The queue that a drain loaded. -/
def loaded : List (Event Bytes Hash) → List Hash
  | ⟨.loadSidecar, .ok sidecar⟩ :: _ => sidecar.pendingPushes
  | _ => []

theorem loaded_cons (event : Event Bytes Hash) (t : List (Event Bytes Hash)) :
    loaded (event :: t) = loaded [event] := by
  obtain ⟨c, r⟩ := event
  cases c with
  | loadSidecar => cases r <;> rfl
  | _ => rfl

def Event.providerOf : Event Bytes Hash → Option String
  | ⟨.onProvider provider _, _⟩ => some provider
  | _ => none

/-- What the provider of an event holds. -/
def heldBy (s : Depot Hash) (event : Event Bytes Hash) : Set Hash :=
  {hash | ∃ provider, event.providerOf = some provider ∧ hash ∈ (s.store provider).blobs}

/-- Nothing was queued since the drain loaded the queue, and a probe that fails is for a blob that
is there. -/
def Careful (s : Depot Hash) (t : List (Event Bytes Hash)) : Event Bytes Hash → Prop
  | ⟨.writePending _, .ok _⟩ => ∀ id ∈ s.sidecar.pendingPushes, id ∈ loaded t
  | ⟨.onProvider provider (.hasBlobs hashes), .error _⟩ =>
    ∀ hash ∈ hashes, hash ∈ (s.store provider).blobs
  | _ => True

def Unrestricted (_ : Depot Hash) (_ : List (Event Bytes Hash)) (_ : Event Bytes Hash) : Prop := True

section System
variable [DecidableEq Hash] (F : Formats Bytes Hash) (R : Readers Bytes Hash)
variable (limit : Depot Hash → List (Event Bytes Hash) → Event Bytes Hash → Prop)

inductive Works : Worker Bytes Hash → Depot Hash → Worker Bytes Hash → Depot Hash → Prop
  /-- A call of a push for objects or for `HEAD`. -/
  | calls {s : Depot Hash} {c : Call Bytes Hash}
      {next : Except Error c.Answer → Push Bytes Hash (PushOutcome Hash)} (r : Except Error c.Answer)
      (hload : c ≠ .loadSidecar) (hsave : ∀ sidecar, c ≠ .saveSidecar sidecar) :
      Works (.push (.call c next)) s (.push (next r)) s
  | loads {s : Depot Hash}
      {next : Except Error (Sidecar Hash) → Push Bytes Hash (PushOutcome Hash)} :
      Works (.push (.call .loadSidecar next)) s (.push (next (.ok s.sidecar))) s
  | failsToLoad {s : Depot Hash}
      {next : Except Error (Sidecar Hash) → Push Bytes Hash (PushOutcome Hash)} (e : Error) :
      Works (.push (.call .loadSidecar next)) s (.push (next (.error e))) s
  /-- `Sidecar::modify`: load, clock and save in one. -/
  | modifies {s : Depot Hash}
      {load : Except Error (Sidecar Hash) → Push Bytes Hash (PushOutcome Hash)}
      {tick : Except Error Clock → Push Bytes Hash (PushOutcome Hash)}
      {saved : Except Error Unit → Push Bytes Hash (PushOutcome Hash)} {clock : Clock}
      {sidecar : Sidecar Hash} (hload : load (.ok s.sidecar) = .call .now tick)
      (htick : tick (.ok clock) = .call (.saveSidecar sidecar) saved) :
      Works (.push (.call .loadSidecar load)) s (.push (saved (.ok ()))) { s with sidecar := sidecar }
  | failsToSave {s : Depot Hash} {sidecar : Sidecar Hash}
      {next : Except Error Unit → Push Bytes Hash (PushOutcome Hash)} (e : Error) :
      Works (.push (.call (.saveSidecar sidecar) next)) s (.push (next (.error e))) s
  | drains {s s' : Depot Hash} {providers : List String} {c : DrainCall Bytes Hash}
      {next : Except Error c.Answer → Drain Bytes Hash Nat} {r : Except Error c.Answer}
      {heard : List (Heard Bytes Hash)} (h : DrainStep F s c r s')
      (hlimit : limit s (heard.map Heard.event) ⟨c, r⟩) :
      Works (.drain providers (.call c next) heard) s
        (.drain providers (next r) (heard ++ [⟨⟨c, r⟩, heldBy s' ⟨c, r⟩⟩])) s'

/-- Pushes and drains beside one sidecar. Whatever else happens, happens at the providers. -/
def workers : System (Depot Hash) Nat (Worker Bytes Hash) where
  env s s' := s'.sidecar = s.sidecar
  begins _ _ worker := (∃ (Client : Type) (request : PushRequest Client Bytes Hash),
      worker = .push (Push.pushWithOptions F R request)) ∨
    ∃ providers, worker = .drain providers (Drain.drainPendingPushes F providers) []
  acts _ := Works F limit
  ends _ _ s s' := s' = s

end System

/-! Pushes only add to the queue. -/

/-- The sidecar that a push loaded last. -/
def lastLoaded : Option (Sidecar Hash) → (c : Call Bytes Hash) → c.Answer → Option (Sidecar Hash)
  | _, .loadSidecar, sidecar => some sidecar
  | last, _, _ => last

/-- A sidecar that is saved keeps the queue of the one loaded last. -/
def KeepsQueue : Option (Sidecar Hash) → Call Bytes Hash → Prop
  | some before, .saveSidecar sidecar => ∀ id ∈ before.pendingPushes, id ∈ sidecar.pendingPushes
  | none, .saveSidecar _ => False
  | _, _ => True

abbrev Queues {α : Type} (x : Push Bytes Hash α) (last : Option (Sidecar Hash)) : Prop :=
  Follows lastLoaded KeepsQueue (fun _ _ => True) x last

section Queues
variable {α β : Type} {F : Formats Bytes Hash} {R : Readers Bytes Hash}
variable {request : PushRequest Client Bytes Hash} {last : Option (Sidecar Hash)}

theorem queues_only {x : Push Bytes Hash α} (hx : x.Only Call.IsObject) : Queues x last := by
  induction x generalizing last with
  | done a => trivial
  | fail e => trivial
  | call c next ih =>
    obtain ⟨hc, hnext⟩ := hx
    refine ⟨?_, fun r => ih (.ok r) (hnext _), fun e => ih (.error e) (hnext _)⟩
    cases c with
    | saveSidecar => exact False.elim hc
    | _ => cases last <;> trivial

theorem queues_bind {x : Push Bytes Hash α} {f : α → Push Bytes Hash β} (hx : Queues x last)
    (hf : ∀ a last, Queues (f a) last) : Queues (x >>= f) last :=
  Follows.bind hx fun last a _ => hf a last

theorem queues_ask {c : Call Bytes Hash} {what : String} (hsave : ∀ sidecar, c ≠ .saveSidecar sidecar) :
    Queues (ask c what) last := by
  refine ⟨?_, fun _ => trivial, fun _ => trivial⟩
  cases c with
  | saveSidecar sidecar => exact absurd rfl (hsave sidecar)
  | _ => cases last <;> trivial

theorem queues_modifySidecar {what : String} {f : Clock → Sidecar Hash → Sidecar Hash}
    (hf : ∀ now sidecar, ∀ id ∈ sidecar.pendingPushes, id ∈ (f now sidecar).pendingPushes) :
    Queues (Push.modifySidecar what f : Push Bytes Hash Unit) last := by
  refine Follows.run_bind (by cases last <;> trivial) fun sidecar => ?_
  exact Follows.run_bind trivial fun now => ⟨hf now sidecar, fun _ => trivial, fun _ => trivial⟩

/-- What one change of the sidecar does to the queue. -/
theorem Queues.modifies {load : Except Error (Sidecar Hash) → Push Bytes Hash α}
    {tick : Except Error Clock → Push Bytes Hash α} {saved : Except Error Unit → Push Bytes Hash α}
    {clock : Clock} {before sidecar : Sidecar Hash} (h : Queues (.call .loadSidecar load) last)
    (hload : load (.ok before) = .call .now tick)
    (htick : tick (.ok clock) = .call (.saveSidecar sidecar) saved) :
    (∀ id ∈ before.pendingPushes, id ∈ sidecar.pendingPushes) ∧
      Queues (saved (.ok ())) (some before) := by
  have hnow : Queues (.call .now tick) (some before) := hload ▸ h.2.1 before
  have hsave : Queues (.call (.saveSidecar sidecar) saved) (some before) := htick ▸ hnow.2.1 clock
  exact ⟨hsave.1, hsave.2.1 ()⟩

variable [DecidableEq Hash]

theorem queues_stashSnapshot {base : Option Hash} {reason : String} :
    Queues (Push.stashSnapshot F R request base reason) last := by
  refine queues_bind (queues_only (Prog.only_ofExcept _)) fun _ _ => ?_
  refine queues_bind (queues_only (Prog.only_ofExcept _)) fun _ _ => ?_
  refine queues_bind (queues_only (Prog.only_ofExcept _)) fun _ _ => ?_
  refine queues_bind (queues_only (Prog.only_ofExcept _)) fun _ _ => ?_
  refine queues_bind (queues_only Push.only_stashResources) fun _ _ => ?_
  refine queues_bind (queues_only (Push.only_ask trivial)) fun _ _ => ?_
  exact queues_bind (queues_modifySidecar fun _ _ _ hid => hid) fun _ _ => trivial

theorem queues_reconcile {remoteHead localHead : Option Hash} :
    Queues (Push.reconcile F R request remoteHead localHead) last := by
  unfold Push.reconcile
  split
  · trivial
  · split
    · trivial
    · split
      · trivial
      · exact queues_bind queues_stashSnapshot fun _ _ => queues_only Push.only_mergeStashed

theorem queues_commitPrepared {prepared : Push.Prepared Bytes Hash} :
    Queues (Push.commitPrepared F R request prepared) last := by
  refine queues_bind (queues_only (Prog.only_ofExcept _)) fun _ _ => ?_
  refine queues_bind (queues_only (Prog.only_ofExcept _)) fun _ _ => ?_
  refine queues_bind (queues_only Push.only_buildSampleManifest) fun _ _ => ?_
  rw [Push.writeCommitToPrimary_eq]
  refine queues_bind (queues_bind (queues_only Push.only_storeCommit) fun _ _ => ?_) fun commit _ => ?_
  · refine queues_bind (queues_ask fun _ h => by cases h) fun answer _ => ?_
    cases answer <;> trivial
  · refine queues_bind (queues_only (Prog.only_ofExcept _)) fun _ _ => ?_
    refine queues_bind (queues_modifySidecar fun now sidecar id hid => ?_) fun _ _ => trivial
    simp only [Push.recordCommit]
    split
    · exact List.mem_append_left _ hid
    · exact hid

theorem queues_pushWithOptions (F : Formats Bytes Hash) (R : Readers Bytes Hash)
    (request : PushRequest Client Bytes Hash) (last : Option (Sidecar Hash)) :
    Queues (Push.pushWithOptions F R request) last := by
  refine queues_bind (queues_ask fun _ h => by cases h) fun _ _ => ?_
  refine queues_bind (queues_ask fun _ h => by cases h) fun _ _ => ?_
  refine queues_bind queues_reconcile fun reconciled _ => ?_
  cases reconciled with
  | stopped outcome => trivial
  | ready prepared => exact queues_commitPrepared

end Queues

/-! A drain writes back what it could not deliver. -/

/-- An id that a drain drops from the queue it loaded, it has delivered. -/
def MayWrite (F : Formats Bytes Hash) (providers : List String) (t : List (Event Bytes Hash)) :
    DrainCall Bytes Hash → Prop
  | .writePending still => ∀ id ∈ loaded t, id ∉ still →
    ∃ fetched events, Delivered F providers id fetched events ∧ events <:+: t
  | _ => True

theorem learns_drainPendingPushes (F : Formats Bytes Hash) (providers : List String) :
    Learns F (MayWrite F providers) (fun _ _ => True) (Drain.drainPendingPushes F providers) [] := by
  refine learns_attempt trivial fun r _ => ?_
  cases r with
  | error e => exact learns_pure trivial
  | ok sidecar =>
    simp only
    split
    · exact learns_pure trivial
    · refine learns_bind (learns_deliverEach fun _ _ _ => trivial) fun result t ⟨ht, hids⟩ => ?_
      obtain ⟨rest, rfl⟩ := ht
      split
      · refine learns_attempt (fun id hid hno => ?_) fun _ _ => learns_pure trivial
        exact (hids id hid).resolve_left hno
      · exact learns_pure trivial

/-! What a drain has seen at the providers. -/

/-- What an event tells about the blobs that its provider held. -/
def Seen (h : Heard Bytes Hash) : Prop :=
  match h.event with
  | ⟨.onProvider _ (.putBlob hash _), .ok _⟩ => hash ∈ h.held
  | ⟨.onProvider _ (.hasBlobs hashes), .ok present⟩ =>
    List.Forall₂ (fun hash here => here = true ↔ hash ∈ h.held) hashes present
  | ⟨.onProvider _ (.hasBlobs hashes), .error _⟩ => ∀ hash ∈ hashes, hash ∈ h.held
  | _ => True

/-- One provider accepted a commit, its manifest and its samples, and held its snapshot. -/
structure Accepted (heard : List (Heard Bytes Hash)) (commit : Commit Hash)
    (manifest : SampleManifest Hash) (provider : String) : Prop where
  tookCommit : ∃ h ∈ heard, h.event = .putCommit provider commit
  tookManifest : ∃ h ∈ heard, ∃ bytes, h.event = .put provider commit.tree.samples bytes
  tookSamples : ∀ e ∈ manifest.entries, ∃ h ∈ heard, ∃ bytes, h.event = .put provider e.hash bytes
  heldSnapshot : ∃ h ∈ heard, h.event.providerOf = some provider ∧ commit.tree.snapshot ∈ h.held

/-- What has been heard shows this id accepted by every provider. -/
def AcceptedByAll (F : Formats Bytes Hash) (providers : List String) (id : Hash)
    (heard : List (Heard Bytes Hash)) : Prop :=
  ∃ commit manifest bytes, commit.id = id ∧ F.contentHash bytes = commit.tree.samples ∧
    F.decodeManifest bytes = .ok manifest ∧
      ∀ provider ∈ providers, Accepted heard commit manifest provider

section Heard
variable {F : Formats Bytes Hash} {s s' : Depot Hash} {heard : List (Heard Bytes Hash)}
variable {id : Hash} {fetched : Fetched Bytes Hash} {provider : String}

theorem seen_step {c : DrainCall Bytes Hash} {r : Except Error c.Answer} (h : DrainStep F s c r s')
    {t : List (Event Bytes Hash)} (hcare : Careful s t ⟨c, r⟩) : Seen ⟨⟨c, r⟩, heldBy s' ⟨c, r⟩⟩ := by
  have hself : ∀ {provider : String} {call : StoreCall Bytes Hash} {r : Except Error call.Answer}
      {held : Holdings Hash}, heldBy { s with store := Function.update s.store provider held }
        (⟨.onProvider provider call, r⟩ : Event Bytes Hash) = held.blobs := by
    intro provider call r held
    ext hash
    simp [heldBy, Event.providerOf]
  cases h with
  | @onProvider provider call r held h =>
    simp only [Seen, hself]
    cases h with
    | probed h => exact h
    | unanswered => exact hcare
    | stored => exact Set.mem_insert _ _
    | failed call e hno =>
      cases call with
      | hasBlobs hashes => exact absurd rfl (hno hashes)
      | _ => trivial
    | _ => trivial
  | _ => trivial

theorem mem_heard {events : List (Event Bytes Hash)} (hin : events <:+: heard.map Heard.event)
    {event : Event Bytes Hash} (h : event ∈ events) : ∃ h ∈ heard, h.event = event :=
  List.mem_map.mp (hin.subset h)

theorem took_accepted {events : List (Event Bytes Hash)} (ht : Took id fetched provider events)
    (hf : Fetches F id fetched) (hin : events <:+: heard.map Heard.event)
    (hseen : ∀ h ∈ heard, Seen h) : Accepted heard fetched.commit fetched.manifest provider := by
  cases ht with
  | @mk probe hprobe r =>
    refine ⟨?_, ?_, fun e he => ?_, ?_⟩
    · exact mem_heard hin (List.mem_append_right _ (List.mem_append_right _ (by simp)))
    · obtain ⟨h, hmem, he⟩ := mem_heard hin
        (List.mem_append_right _ (List.mem_append_right _ List.mem_cons_self))
      exact ⟨h, hmem, _, he⟩
    · have hhash : e.hash ∈ fetched.sampleBlobs.map Prod.fst := by
        rw [hf.blobs]
        exact List.mem_map_of_mem he
      obtain ⟨blob, hblob, heq⟩ := List.mem_map.mp hhash
      have hput : Event.put provider blob.1 blob.2 ∈
          fetched.sampleBlobs.map fun b => Event.put provider b.1 b.2 :=
        List.mem_map.mpr ⟨blob, hblob, rfl⟩
      obtain ⟨h, hmem, hevent⟩ := mem_heard hin
        (List.mem_append_right _ (List.mem_append_left _ hput))
      exact ⟨h, hmem, blob.2, by rw [hevent, heq]⟩
    · have hfirst : probe <:+: heard.map Heard.event :=
        (List.prefix_append probe _).isInfix.trans hin
      cases hprobe with
      | unanswered e =>
        obtain ⟨h, hmem, hevent⟩ := mem_heard hfirst List.mem_cons_self
        have hs := hseen h hmem
        unfold Seen at hs
        rw [hevent] at hs
        exact ⟨h, hmem, by rw [hevent]; rfl, hs _ List.mem_cons_self⟩
      | present hp =>
        obtain ⟨h, hmem, hevent⟩ := mem_heard hfirst List.mem_cons_self
        have hs := hseen h hmem
        unfold Seen at hs
        rw [hevent] at hs
        cases hs with
        | cons hhere _ => exact ⟨h, hmem, by rw [hevent]; rfl, hhere.mp hp⟩
      | uploaded present =>
        obtain ⟨h, hmem, hevent⟩ := mem_heard hfirst (List.mem_cons_of_mem _ List.mem_cons_self)
        have hs := hseen h hmem
        unfold Seen at hs
        rw [hevent] at hs
        exact ⟨h, hmem, by rw [hevent]; rfl, hs⟩

theorem tookAll_accepted {providers : List String} {events : List (Event Bytes Hash)}
    (ht : TookAll id fetched providers events) (hf : Fetches F id fetched)
    (hin : events <:+: heard.map Heard.event) (hseen : ∀ h ∈ heard, Seen h) :
    ∀ p ∈ providers, Accepted heard fetched.commit fetched.manifest p := by
  induction ht with
  | nil => exact fun _ hp => absurd hp List.not_mem_nil
  | cons htook _ ih =>
    intro p hp
    rcases List.mem_cons.mp hp with rfl | hp
    · exact took_accepted htook hf ((List.prefix_append _ _).isInfix.trans hin) hseen
    · exact ih ((List.suffix_append _ _).isInfix.trans hin) p hp

theorem delivered_accepted {providers : List String} {events : List (Event Bytes Hash)}
    (hd : Delivered F providers id fetched events) (hin : events <:+: heard.map Heard.event)
    (hseen : ∀ h ∈ heard, Seen h) : AcceptedByAll F providers id heard := by
  cases hd with
  | mk _ hf _ htaken =>
    refine ⟨fetched.commit, fetched.manifest, fetched.manifestBytes, hf.commit, hf.samples,
      hf.manifest, ?_⟩
    exact tookAll_accepted htaken hf ((List.suffix_append _ _).isInfix.trans hin) hseen

end Heard

/-! Runs. -/

/-- What is known of a worker: a push only adds to the queue, and a drain drops from it what it
loaded and delivered. -/
def KnowsWorker (F : Formats Bytes Hash) : Worker Bytes Hash → Prop
  | .push program => ∃ last, Queues program last
  | .drain providers program heard =>
    Learns F (MayWrite F providers) (fun _ _ => True) program (heard.map Heard.event) ∧
      ∀ h ∈ heard, Seen h

section Runs
variable [DecidableEq Hash] {F : Formats Bytes Hash} {R : Readers Bytes Hash}
variable {s s' : Depot Hash} {worker worker' : Worker Bytes Hash}

omit [DecidableEq Hash] in
theorem KnowsWorker.works (hk : KnowsWorker F worker) (h : Works F Careful worker s worker' s') :
    KnowsWorker F worker' := by
  cases h with
  | calls r =>
    obtain ⟨last, -, hok, herr⟩ := hk
    cases r with
    | ok a => exact ⟨_, hok a⟩
    | error e => exact ⟨_, herr e⟩
  | loads =>
    obtain ⟨last, -, hok, -⟩ := hk
    exact ⟨_, hok _⟩
  | failsToLoad e =>
    obtain ⟨last, -, -, herr⟩ := hk
    exact ⟨_, herr e⟩
  | modifies hload htick =>
    obtain ⟨last, hk⟩ := hk
    exact ⟨_, (hk.modifies hload htick).2⟩
  | failsToSave e =>
    obtain ⟨last, -, -, herr⟩ := hk
    exact ⟨_, herr e⟩
  | drains h hlimit =>
    obtain ⟨hlearns, hseen⟩ := hk
    refine ⟨?_, fun heard hmem => ?_⟩
    · rw [List.map_append]
      exact (hlearns _ rfl).2 _ _ (.mk h.honest)
    · rcases List.mem_append.mp hmem with hmem | hmem
      · exact hseen heard hmem
      · obtain rfl := List.mem_singleton.mp hmem
        exact seen_step h hlimit

theorem workers_outline (F : Formats Bytes Hash) (R : Readers Bytes Hash) :
    Outline (workers F R Careful) (fun _ _ => True) (fun _ => True) fun _ worker _ =>
      KnowsWorker F worker where
  stable _ _ _ _ _ _ _ h := h
  env _ _ _ _ := ⟨trivial, trivial⟩
  begins _ _ _ hb _ := by
    rcases hb with ⟨Client, request, rfl⟩ | ⟨providers, rfl⟩
    · exact ⟨none, queues_pushWithOptions F R request none⟩
    · exact ⟨learns_drainPendingPushes F providers, fun _ h => absurd h List.not_mem_nil⟩
  acts _ _ _ _ _ ha _ hk := ⟨trivial, trivial, hk.works ha⟩
  ends _ _ _ _ _ _ _ := ⟨trivial, trivial⟩

omit [DecidableEq Hash] in
/-- Only a drain takes an id from the queue, one that loaded it and delivered it. -/
theorem KnowsWorker.drops (hk : KnowsWorker F worker) (h : Works F Careful worker s worker' s')
    {id : Hash} (hin : id ∈ s.sidecar.pendingPushes) (hout : id ∉ s'.sidecar.pendingPushes) :
    ∃ providers program heard, worker = .drain providers program heard ∧
      id ∈ loaded (heard.map Heard.event) ∧ AcceptedByAll F providers id heard := by
  cases h with
  | modifies hload htick =>
    obtain ⟨last, hk⟩ := hk
    exact absurd ((hk.modifies hload htick).1 id hin) hout
  | drains h hlimit =>
    cases h with
    | wrote still =>
      obtain ⟨hlearns, hseen⟩ := hk
      have hloaded := hlimit id hin
      obtain ⟨fetched, events, hd, hinfix⟩ := (hlearns _ rfl).1 id hloaded hout
      exact ⟨_, _, _, rfl, hloaded, delivered_accepted hd hinfix hseen⟩
    | _ => exact absurd hin hout
  | _ => exact absurd hin hout

end Runs

/-! A push that queues its commit behind a drain. -/

/-- Events that no restriction concerns. -/
def Event.Quiet : Event Bytes Hash → Prop
  | ⟨.writePending _, _⟩ => False
  | ⟨.onProvider _ (.hasBlobs _), .error _⟩ => False
  | _ => True

theorem careful_of_quiet {s : Depot Hash} {t : List (Event Bytes Hash)} {event : Event Bytes Hash}
    (h : event.Quiet) : Careful s t event := by
  unfold Careful
  split
  · exact False.elim h
  · exact False.elim h
  · trivial

def QuietStep (F : Formats Bytes Hash) (s : Depot Hash) (c : DrainCall Bytes Hash)
    (r : Except Error c.Answer) (s' : Depot Hash) : Prop :=
  DrainStep F s c r s' ∧ Event.Quiet ⟨c, r⟩

section Alone
variable [DecidableEq Hash] {F : Formats Bytes Hash} {R : Readers Bytes Hash}
variable {limit : Depot Hash → List (Event Bytes Hash) → Event Bytes Hash → Prop}
variable {start s s' : Depot Hash} {threads : Nat → Thread (Worker Bytes Hash)} {i : Nat} {α : Type}

/-- A part of a drain may run on alone. -/
theorem reachable_drain (hl : ∀ s t event, Event.Quiet event → limit s t event)
    {providers : List String} {x : Drain Bytes Hash α} {f : α → Drain Bytes Hash Nat} {a : α}
    {heard : List (Heard Bytes Hash)} (h : (workers F R limit).Reachable start ⟨s, threads⟩)
    (hi : threads i = .running (.drain providers (x >>= f) heard))
    (hr : Runs (QuietStep F) s x s' (.ok a)) :
    ∃ more, (workers F R limit).Reachable start
      ⟨s', Function.update threads i (.running (.drain providers (f a) (heard ++ more)))⟩ := by
  induction x generalizing s threads heard with
  | done b =>
    cases hr
    refine ⟨[], ?_⟩
    rw [List.append_nil, ← Prog.done_bind a f, ← hi, Function.update_eq_self]
    exact h
  | fail e => cases hr
  | call c next ih =>
    cases hr with
    | @call _ _ _ _ _ r _ hstep rest =>
      obtain ⟨more, hm⟩ := ih r (h.acts hi (.drains hstep.1 (hl _ _ _ hstep.2)))
        (Function.update_self ..) rest
      rw [Function.update_idem, List.append_assoc] at hm
      exact ⟨_, hm⟩

/-- A part of a push that does not touch the sidecar may run on alone. -/
theorem reachable_push {x : Push Bytes Hash α} {f : α → Push Bytes Hash (PushOutcome Hash)} {a : α}
    (h : (workers F R limit).Reachable start ⟨s, threads⟩)
    (hi : threads i = .running (.push (x >>= f))) (hx : x.Only Call.IsRemote) (hr : x.Returns a) :
    (workers F R limit).Reachable start
      ⟨s, Function.update threads i (.running (.push (f a)))⟩ := by
  induction x generalizing threads with
  | done b =>
    obtain rfl : b = a := hr
    rw [← Prog.done_bind b f, ← hi, Function.update_eq_self]
    exact h
  | fail e => cases hr
  | call c next ih =>
    obtain ⟨hc, hnext⟩ := hx
    obtain ⟨r, hr⟩ := hr
    have hstep := h.acts hi (.calls r (fun heq => by subst heq; exact hc)
      fun sidecar heq => by subst heq; exact hc)
    have hlast := ih r hstep (Function.update_self ..) (hnext r) hr
    rw [Function.update_idem] at hlast
    exact hlast

end Alone

section Delivery
variable {F : Formats Bytes Hash} {s₀ s : Depot Hash} {provider : String}

theorem canEnd_putSnapshot {fetched : Fetched Bytes Hash}
    (hf : F.contentHash fetched.snapshotBytes = fetched.commit.tree.snapshot)
    (hs : s.sidecar = s₀.sidecar) :
    CanEnd (QuietStep F) (fun s' => s'.sidecar = s₀.sidecar) (.ok true)
      (Drain.putSnapshot provider fetched) s := by
  by_cases hheld : fetched.commit.tree.snapshot ∈ (s.store provider).blobs
  · have hprobe : List.Forall₂ (fun hash here => here = true ↔ hash ∈ (s.store provider).blobs)
        [fetched.commit.tree.snapshot] [true] := .cons (by simp [hheld]) .nil
    exact .call ⟨.onProvider (.probed hprobe), trivial⟩ (.done hs)
  · have hprobe : List.Forall₂ (fun hash here => here = true ↔ hash ∈ (s.store provider).blobs)
        [fetched.commit.tree.snapshot] [false] := .cons (by simp [hheld]) .nil
    exact .call ⟨.onProvider (.probed hprobe), trivial⟩
      (.call ⟨.onProvider (.stored hf), trivial⟩ (.done hs))

theorem canEnd_deliverTo {fetched : Fetched Bytes Hash} {id : Hash}
    (hf : F.contentHash fetched.snapshotBytes = fetched.commit.tree.snapshot)
    (hm : F.contentHash fetched.manifestBytes = fetched.commit.tree.samples)
    (hg : fetched.commit.Genuine F) (hno : fetched.sampleBlobs = [])
    (hs : s.sidecar = s₀.sidecar) :
    CanEnd (QuietStep F) (fun s' => s'.sidecar = s₀.sidecar) (.ok true)
      (Drain.deliverTo id fetched provider) s := by
  refine (canEnd_putSnapshot hf hs).bind fun s₁ hs₁ => ?_
  rw [hno]
  refine .call ⟨.onProvider (.stored hm), trivial⟩ (.call ⟨.onProvider (.storedCommit hg), trivial⟩ ?_)
  exact .call ⟨.onProvider (.advance none id (.ok .advanced)), trivial⟩ (.done hs₁)

/-- A drain delivers a commit without samples to a provider that answers every call. -/
theorem canEnd_deliver (hF : F.Lawful)
    {d : Delivery Bytes Hash} (hd : d.Complete F) (hno : d.manifest.entries = [])
    (s : Depot Hash) :
    CanEnd (QuietStep F) (fun s' => s'.sidecar = s.sidecar) (.ok true)
      (Drain.deliver F [provider] d.commit.id) s := by
  have hdecode := hF.decode_manifest _ _ hd.manifest
  have hempty : d.manifest = ⟨[]⟩ := congrArg SampleManifest.mk hno
  rw [hempty] at hdecode
  have hfetch : CanEnd (QuietStep F) (fun s' => s'.sidecar = s.sidecar)
      (.ok (some ⟨d.commit, d.snapshotBytes, d.manifestBytes, ⟨[]⟩, []⟩))
      (Drain.fetchFrom F d.commit.id provider) s := by
    refine .call ⟨.onProvider (.gotCommit rfl), trivial⟩ ?_
    refine .call ⟨.onProvider (.gotBlob hd.snapshot), trivial⟩ ?_
    refine .call ⟨.onProvider (.gotBlob hd.samples), trivial⟩ ?_
    simp only [Prog.bind, hdecode]
    exact ⟨_, .done _ _, rfl⟩
  have hfetched : CanEnd (QuietStep F) (fun s' => s'.sidecar = s.sidecar)
      (.ok (some ⟨d.commit, d.snapshotBytes, d.manifestBytes, ⟨[]⟩, []⟩))
      (Drain.fetch F d.commit.id [provider]) s := CanEnd.bind hfetch fun s' hs => .done hs
  refine CanEnd.bind hfetched fun s₁ hs₁ => ?_
  exact CanEnd.bind (canEnd_deliverTo hd.snapshot hd.samples hd.genuine rfl hs₁)
    fun s₂ hs₂ => .done hs₂

end Delivery

/-- The shape of a drain of one id to one provider. -/
theorem drain_one (F : Formats Bytes Hash) (provider : String) {sidecar : Sidecar Hash} {id : Hash}
    (h : sidecar.pendingPushes = [id]) :
    ∃ load rest next, Drain.drainPendingPushes F [provider] = .call .loadSidecar load ∧
      load (.ok sidecar) = Drain.deliver F [provider] id >>= rest ∧
      rest true = .call (.writePending []) next := by
  let write : Nat × List Hash → Drain Bytes Hash Nat := fun counted =>
    if 0 < counted.1 then do
      let _ ← Drain.attempt (.writePending counted.2)
      pure counted.1
    else pure counted.1
  refine ⟨_, fun delivered => (Drain.deliverEach F [provider] [] >>= fun counted =>
    pure (if delivered then (counted.1 + 1, counted.2) else (counted.1, id :: counted.2))) >>= write,
    _, rfl, ?_, rfl⟩
  simp only [Prog.bind, h]
  exact Prog.bind_assoc _ _ _

section Scenario
variable [DecidableEq Hash] {F : Formats Bytes Hash} {R : Readers Bytes Hash}
variable {limit : Depot Hash → List (Event Bytes Hash) → Event Bytes Hash → Prop}
variable {start s : Depot Hash} {threads : Nat → Thread (Worker Bytes Hash)} {i : Nat}
variable {provider : String} {id : Hash}

theorem reachable_loaded (provider : String) (hl : ∀ s t event, Event.Quiet event → limit s t event)
    (h : (workers F R limit).Reachable start ⟨s, threads⟩) (hi : threads i = .waiting)
    (hp : s.sidecar.pendingPushes = [id]) :
    ∃ rest next heard, rest true = .call (.writePending []) next ∧
      loaded (List.map Heard.event [heard]) = [id] ∧ (workers F R limit).Reachable start
        ⟨s, Function.update threads i
          (.running (.drain [provider] (Drain.deliver F [provider] id >>= rest) [heard]))⟩ := by
  obtain ⟨load, rest, next, hdrain, hload, hrest⟩ := drain_one F provider hp
  have hbegin := h.begins hi (Or.inr ⟨[provider], rfl⟩)
  rw [hdrain] at hbegin
  have hstep := hbegin.acts (Function.update_self ..) (.drains (.loaded s) (hl _ _ _ trivial))
  rw [Function.update_idem, hload] at hstep
  refine ⟨rest, next, _, hrest, ?_, hstep⟩
  exact hp

theorem reachable_delivered (hl : ∀ s t event, Event.Quiet event → limit s t event) (hF : F.Lawful)
    {d : Delivery Bytes Hash} (hd : d.Complete F) (hno : d.manifest.entries = [])
    {rest : Bool → Drain Bytes Hash Nat} {heard : List (Heard Bytes Hash)}
    (h : (workers F R limit).Reachable start ⟨s, threads⟩)
    (hi : threads i = .running
      (.drain [provider] (Drain.deliver F [provider] d.commit.id >>= rest) heard)) :
    ∃ s' more, s'.sidecar = s.sidecar ∧ (workers F R limit).Reachable start
      ⟨s', Function.update threads i (.running (.drain [provider] (rest true) (heard ++ more)))⟩ := by
  obtain ⟨s', hrun, hs'⟩ := canEnd_deliver hF hd hno s
  obtain ⟨more, hm⟩ := reachable_drain hl h hi hrun
  exact ⟨s', more, hs', hm⟩

theorem reachable_enqueued {request : PushRequest Client Bytes Hash}
    {prepared : Push.Prepared Bytes Hash} {d : Delivery Bytes Hash}
    (h : (workers F R limit).Reachable start ⟨s, threads⟩) (hi : threads i = .waiting)
    (hlocal : s.sidecar.localHead = none)
    (hprepared : prepared = ⟨request.snapshot, [], false, none⟩)
    (hd : (Push.commitToPrimary F R request prepared).Returns d) (clock : Clock) :
    ∃ program, (workers F R limit).Reachable start
      ⟨{ s with sidecar := Push.recordCommit request d.commit.id clock s.sidecar },
        Function.update threads i (.running (.push program))⟩ := by
  have hbegin := h.begins hi (Or.inl ⟨Client, request, rfl⟩)
  have hhead := hbegin.acts (Function.update_self ..)
    (.calls (.ok none) (fun heq => by cases heq) fun _ heq => by cases heq)
  have hload := hhead.acts (Function.update_self ..) .loads
  rw [Function.update_idem, Function.update_idem] at hload
  simp only [Prog.bind, hlocal, Push.reconcile, if_true, Prog.pure_eq, Prog.done_bind,
    Option.toList_none, ← hprepared, Push.commitPrepared_eq] at hload
  have hcommit := reachable_push hload (Function.update_self ..) Push.only_commitToPrimary hd
  obtain ⟨program, hw⟩ : ∃ program, Works F limit (.push (Push.finish request d)) s (.push program)
      { s with sidecar := Push.recordCommit request d.commit.id clock s.sidecar } :=
    ⟨_, .modifies rfl rfl⟩
  have hmodify := hcommit.acts (Function.update_self ..) hw
  rw [Function.update_idem, Function.update_idem] at hmodify
  exact ⟨_, hmodify⟩

theorem step_write {providers : List String} {still : List Hash}
    {next : Except Error Unit → Drain Bytes Hash Nat} {heard : List (Heard Bytes Hash)}
    (hi : threads i = .running (.drain providers (.call (.writePending still) next) heard))
    (hl : limit s (heard.map Heard.event) ⟨.writePending still, .ok ()⟩) :
    ∃ w', (workers F R limit).Step ⟨s, threads⟩ w' ∧ w'.shared.sidecar.pendingPushes = still :=
  ⟨_, .acts hi (.drains (.wrote s still) hl), rfl⟩

end Scenario

/-- A sidecar whose queue is this id. -/
def queueOf (id : Term) : Depot Term := ⟨{ pendingPushes := [id] }, fun _ => .empty⟩

/-- A push whose mirror fails. -/
def lateRequest : PushRequest Nat Term Term :=
  { pushOf 0 (song "C" "Dawn") with mirrors := [("mirror", some "offline")] }

def latePrepared : Push.Prepared Term Term := ⟨lateRequest.snapshot, [], false, none⟩

def lateDelivery : Option (Delivery Term Term) :=
  (Shared.start.alone symbolic 1 0 lateRequest
    (Push.commitToPrimary symbolic nativeReaders lateRequest latePrepared)).2.toOption

theorem lateDelivery_returns {d : Delivery Term Term} (h : lateDelivery = some d) :
    (Push.commitToPrimary symbolic nativeReaders lateRequest latePrepared).Returns d := by
  unfold lateDelivery at h
  generalize hr : Shared.alone symbolic Shared.start 1 0 lateRequest _ = result at h
  obtain ⟨s, r⟩ := result
  cases r with
  | error e => cases h
  | ok d' =>
    cases h
    exact returns_alone (congrArg Prod.snd hr)

end AuruPm
