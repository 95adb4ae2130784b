import AuruPm.DrainTrace
import AuruPm.Symbolic

/-!
# What a mirror can serve

A mirror push that ends well, and a drain that counts an id, leave on the provider what they
uploaded and nothing else. The metadata blob of a commit is never uploaded, and a drain leaves
the snapshot out where its presence probe fails.
-/

namespace AuruPm

set_option autoImplicit false

open SortedAssoc Threads

variable {Client Bytes Hash : Type}

/-! Drains as lists of events. -/

/-- The events lead from the first state to the second. -/
inductive Plays (F : Formats Bytes Hash) : Depot Hash → List (Event Bytes Hash) → Depot Hash → Prop
  | nil (s : Depot Hash) : Plays F s [] s
  | cons {s s' s'' : Depot Hash} {call : DrainCall Bytes Hash} {r : Except Error call.Answer}
      {events : List (Event Bytes Hash)} (h : DrainStep F s call r s') (rest : Plays F s' events s'') :
      Plays F s (⟨call, r⟩ :: events) s''

section Events
variable {F : Formats Bytes Hash} {s s' s'' : Depot Hash}

theorem Plays.split {a b : List (Event Bytes Hash)} (h : Plays F s (a ++ b) s'') :
    ∃ s', Plays F s a s' ∧ Plays F s' b s'' := by
  induction a generalizing s with
  | nil => exact ⟨s, .nil s, h⟩
  | cons event a ih =>
    cases h with
    | cons hstep rest =>
      obtain ⟨s', ha, hb⟩ := ih rest
      exact ⟨s', .cons hstep ha, hb⟩

theorem honest_error (call : DrainCall Bytes Hash) (e : Error) :
    Event.Honest F ⟨call, .error e⟩ := by
  cases call with
  | onProvider provider call => cases call <;> trivial
  | _ => trivial

theorem DrainStep.honest {call : DrainCall Bytes Hash} {r : Except Error call.Answer}
    (h : DrainStep F s call r s') : Event.Honest F ⟨call, r⟩ := by
  cases h with
  | onProvider h =>
    cases h with
    | failed call e => exact honest_error _ e
    | gotBlob h => exact h
    | gotCommit h => exact h
    | storedCommit h => exact h
    | _ => trivial
  | _ => trivial

/-- A run is a list of events, which the program hears wherever it begins to listen. -/
theorem runs_heard {E α : Type} {x : Prog (DrainCall Bytes Hash) DrainCall.Answer Error E α}
    {result : Except E α} (h : Runs (DrainStep F) s x s' result) :
    ∃ events, Plays F s events s' ∧ ∀ t, Runs (Hears F) t x (t ++ events) result := by
  induction h with
  | done s a => exact ⟨[], .nil s, fun t => by rw [List.append_nil]; exact .done t a⟩
  | fail s e => exact ⟨[], .nil s, fun t => by rw [List.append_nil]; exact .fail t e⟩
  | @call _ _ _ call _ r _ hstep _ ih =>
    obtain ⟨events, hplays, hruns⟩ := ih
    refine ⟨_, .cons hstep hplays, fun t => .call (.mk hstep.honest) ?_⟩
    have h := hruns (t ++ [⟨call, r⟩])
    rw [List.append_assoc] at h
    exact h

theorem plays_reads {reads : List (Event Bytes Hash)} (hreads : ∀ event ∈ reads, event.IsRead)
    (h : Plays F s reads s') : s' = s := by
  induction h with
  | nil => rfl
  | cons hstep _ ih =>
    have hread := hreads _ List.mem_cons_self
    rw [ih fun event he => hreads event (List.mem_cons_of_mem _ he)]
    cases hstep with
    | onProvider h => cases h <;> first | exact False.elim hread | simp
    | _ => exact False.elim hread

/-- What one provider gains while the others stay as they are. -/
structure Gains (provider : String) (blobs : Set Hash) (commits : Set (Commit Hash))
    (s s' : Depot Hash) : Prop where
  others : ∀ q, q ≠ provider → s'.store q = s.store q
  blobs : (s'.store provider).blobs = (s.store provider).blobs ∪ blobs
  commits : (s'.store provider).commits = (s.store provider).commits ∪ commits
  unanswered : (s'.store provider).unanswered = (s.store provider).unanswered

theorem Gains.trans {provider : String} {b b' : Set Hash} {c c' : Set (Commit Hash)}
    (h : Gains provider b c s s') (h' : Gains provider b' c' s' s'') :
    Gains provider (b ∪ b') (c ∪ c') s s'' where
  others q hq := (h'.others q hq).trans (h.others q hq)
  blobs := by rw [h'.blobs, h.blobs, Set.union_assoc]
  commits := by rw [h'.commits, h.commits, Set.union_assoc]
  unanswered := h'.unanswered.trans h.unanswered

theorem gains_put {provider : String} {hash : Hash} {bytes : Bytes}
    {events : List (Event Bytes Hash)} (h : Plays F s (.put provider hash bytes :: events) s'') :
    ∃ s', Gains provider {hash} ∅ s s' ∧ Plays F s' events s'' := by
  cases h with
  | cons hstep rest =>
    refine ⟨_, ?_, rest⟩
    cases hstep with
    | onProvider h =>
      cases h with
      | stored _ =>
        refine ⟨fun q hq => Function.update_of_ne hq _ _, ?_, ?_, ?_⟩ <;>
          simp [Holdings.put]

theorem gains_puts {provider : String} {blobs : List (Hash × Bytes)}
    {events : List (Event Bytes Hash)}
    (h : Plays F s (blobs.map (fun b => .put provider b.1 b.2) ++ events) s'') :
    ∃ s', Gains provider {hash | hash ∈ blobs.map Prod.fst} ∅ s s' ∧ Plays F s' events s'' := by
  induction blobs generalizing s with
  | nil => exact ⟨s, ⟨fun _ _ => rfl, by simp, by simp, rfl⟩, h⟩
  | cons blob rest ih =>
    obtain ⟨s₁, hg, h⟩ := gains_put h
    obtain ⟨s₂, hg', h⟩ := ih h
    refine ⟨s₂, ?_, h⟩
    have hset : ({hash | hash ∈ (blob :: rest).map Prod.fst} : Set Hash) =
        {blob.1} ∪ {hash | hash ∈ rest.map Prod.fst} := by
      ext hash
      simp only [List.map_cons, List.mem_cons, Set.mem_ofPred_eq, Set.mem_union,
        Set.mem_singleton_iff]
    rw [hset, ← Set.union_self ∅]
    exact hg.trans hg'

theorem gains_putCommit {provider : String} {commit : Commit Hash}
    {events : List (Event Bytes Hash)} (h : Plays F s (.putCommit provider commit :: events) s'') :
    ∃ s', Gains provider ∅ {commit} s s' ∧ Plays F s' events s'' := by
  cases h with
  | cons hstep rest =>
    refine ⟨_, ?_, rest⟩
    cases hstep with
    | onProvider h =>
      cases h with
      | storedCommit _ =>
        refine ⟨fun q hq => Function.update_of_ne hq _ _, ?_, ?_, ?_⟩ <;> simp

theorem plays_advance {provider : String} {fromHead : Option Hash} {toHead : Hash}
    {r : Except Error (HeadAdvance Hash)}
    (h : Plays F s [⟨.onProvider provider (.advanceHead fromHead toHead), r⟩] s') : s' = s := by
  cases h with
  | cons hstep rest =>
    cases rest
    cases hstep with
    | onProvider h => cases h <;> simp

variable {id : Hash} {fetched : Fetched Bytes Hash} {provider : String}

/-- After the probe, and the upload it may lead to, the snapshot is there or was not asked for. -/
theorem probed_gains {probe events : List (Event Bytes Hash)} (hp : Probed fetched provider probe)
    (h : Plays F s (probe ++ events) s'') :
    ∃ s', Plays F s' events s'' ∧ (∀ q, q ≠ provider → s'.store q = s.store q) ∧
      ∀ hash, hash ∈ (s'.store provider).blobs ↔ hash ∈ (s.store provider).blobs ∨
        (hash = fetched.commit.tree.snapshot ∧
          fetched.commit.tree.snapshot ∉ (s'.store provider).unanswered) := by
  cases hp with
  | unanswered e =>
    cases h with
    | cons hstep rest =>
      refine ⟨_, rest, ?_⟩
      cases hstep with
      | onProvider h =>
        cases h with
        | unanswered _ _ =>
          refine ⟨fun q hq => Function.update_of_ne hq _ _, fun hash => ?_⟩
          simp
        | failed _ _ hno => exact absurd rfl (hno _)
  | present hpresent =>
    cases h with
    | cons hstep rest =>
      refine ⟨_, rest, ?_⟩
      cases hstep with
      | onProvider h =>
        cases h with
        | probed hall =>
          refine ⟨fun q hq => Function.update_of_ne hq _ _, fun hash => ?_⟩
          cases hall with
          | cons hhere _ =>
            have hheld := hhere.mp hpresent
            simp only [Function.update_self]
            constructor
            · exact Or.inl
            · rintro (hmem | ⟨rfl, -⟩)
              · exact hmem
              · exact hheld
  | uploaded present =>
    cases h with
    | cons hstep rest =>
      obtain ⟨s', hg, rest⟩ := gains_put rest
      refine ⟨s', rest, ?_⟩
      cases hstep with
      | onProvider h =>
        cases h with
        | probed _ =>
          refine ⟨fun q hq => (hg.others q hq).trans (Function.update_of_ne hq _ _), fun hash => ?_⟩
          rw [hg.blobs, hg.unanswered]
          simp [or_comm]

/-- The blobs that every delivery uploads. -/
def Fetched.sent (fetched : Fetched Bytes Hash) : List Hash :=
  fetched.commit.tree.samples :: fetched.sampleBlobs.map Prod.fst

/-- The provider has the commit, what it had, what was sent, and the snapshot unless the probe for
it was not answered. -/
structure Holds (fetched : Fetched Bytes Hash) (before after : Holdings Hash) : Prop where
  commit : fetched.commit ∈ after.commits
  blobs : ∀ hash, hash ∈ after.blobs ↔ hash ∈ before.blobs ∨ hash ∈ fetched.sent ∨
    (hash = fetched.commit.tree.snapshot ∧ fetched.commit.tree.snapshot ∉ after.unanswered)

theorem took_holds {events : List (Event Bytes Hash)} (ht : Took id fetched provider events)
    (h : Plays F s events s') : Holds fetched (s.store provider) (s'.store provider) ∧
      ∀ q, q ≠ provider → s'.store q = s.store q := by
  cases ht with
  | mk hprobe r =>
    obtain ⟨s₁, h, hothers, hblobs⟩ := probed_gains hprobe h
    obtain ⟨s₂, hg, h⟩ := gains_puts h
    obtain ⟨s₃, hg', h⟩ := gains_put h
    obtain ⟨s₄, hg'', h⟩ := gains_putCommit h
    obtain rfl := plays_advance h
    have hall := (hg.trans hg').trans hg''
    refine ⟨⟨?_, fun hash => ?_⟩, fun q hq => (hall.others q hq).trans (hothers q hq)⟩
    · rw [hall.commits]
      simp
    · rw [hall.blobs, hall.unanswered]
      simp only [Set.mem_union, hblobs, Set.mem_ofPred_eq, Set.mem_singleton_iff, Set.union_empty,
        Fetched.sent, List.mem_cons]
      tauto

theorem tookAll_holds {providers : List String} {events : List (Event Bytes Hash)}
    (ht : TookAll id fetched providers events) (hnodup : providers.Nodup) (h : Plays F s events s') :
    (∀ p ∈ providers, Holds fetched (s.store p) (s'.store p)) ∧
      ∀ q, q ∉ providers → s'.store q = s.store q := by
  induction ht generalizing s with
  | nil =>
    cases h
    exact ⟨fun _ hp => absurd hp List.not_mem_nil, fun _ _ => rfl⟩
  | @cons first _ _ _ htook _ ih =>
    obtain ⟨hnot, hnodup⟩ := List.nodup_cons.mp hnodup
    obtain ⟨s₁, h, hrest⟩ := h.split
    obtain ⟨hholds, hothers⟩ := took_holds htook h
    obtain ⟨hall, hout⟩ := ih hnodup hrest
    refine ⟨fun p hp => ?_, fun q hq => ?_⟩
    · rcases List.mem_cons.mp hp with rfl | hp
      · rw [hout p hnot]
        exact hholds
      · have hne : p ≠ first := fun heq => hnot (heq ▸ hp)
        rw [← hothers p hne]
        exact hall p hp
    · rw [hout q fun hmem => hq (List.mem_cons_of_mem _ hmem)]
      exact hothers q fun heq => hq (heq ▸ List.mem_cons_self)

end Events

/-! Mirror pushes. -/

/-- The blobs that a mirror push uploads. -/
def Delivery.sent (d : Delivery Bytes Hash) : List Hash :=
  d.commit.tree.snapshot :: d.commit.tree.samples :: d.sampleBlobs.map Prod.fst

section Mirrors
variable {F : Formats Bytes Hash} {s s' : Holdings Hash}

/-- What a mirror push leaves on a provider when it ends well. -/
abbrev Leaves {α : Type} (F : Formats Bytes Hash) (post : α → Holdings Hash → Prop)
    (x : MirrorPush Bytes Hash α) (s : Holdings Hash) : Prop :=
  Meets Eq (StoreStep F) (fun _ _ => True) (onOk post) x s

theorem leaves_put {α : Type} {hash : Hash} {bytes : Bytes} {what : String}
    {f : Unit → MirrorPush Bytes Hash α} {post : α → Holdings Hash → Prop}
    (h : Leaves F post (f ()) (s.put hash)) :
    Leaves F post (askMirror (.putBlob hash bytes) what >>= f) s := by
  refine Meets.run_bind_ok (fun _ _ => trivial) fun s₁ _ s₂ hs hstep => ?_
  subst hs
  cases hstep
  exact h

theorem leaves_mirrorPutSamples {blobs : List (Hash × Bytes)} :
    Leaves F (fun _ s' => ∀ hash, hash ∈ s'.blobs ↔ hash ∈ s.blobs ∨ hash ∈ blobs.map Prod.fst)
      (mirrorPutSamples blobs) s := by
  induction blobs generalizing s with
  | nil =>
    rintro _ rfl hash
    simp
  | cons blob rest ih =>
    refine leaves_put (ih.weaken_ok fun _ s' h hash => ?_)
    rw [h hash]
    simp only [Holdings.put, Set.mem_insert_iff, List.map_cons, List.mem_cons]
    tauto

theorem leaves_pushToMirror {d : Delivery Bytes Hash} :
    Leaves F (fun _ s' => d.commit ∈ s'.commits ∧
      ∀ hash, hash ∈ s'.blobs ↔ hash ∈ s.blobs ∨ hash ∈ d.sent) d.toMirror s := by
  refine leaves_put (Meets.bind_ok (fun _ => rfl) leaves_mirrorPutSamples fun _ s₁ h₁ => ?_)
  refine leaves_put (Meets.run_bind_ok (fun _ _ => trivial) fun s₂ _ s₃ hs hstep => ?_)
  subst hs
  cases hstep
  rintro _ rfl
  refine ⟨trivial, ?_⟩
  intro r s₄ hstep
  have hsame : s₄.blobs = (s₁.put d.commit.tree.samples).blobs ∧ d.commit ∈ s₄.commits := by
    cases hstep <;> simp
  rintro _ rfl
  refine ⟨hsame.2, fun hash => ?_⟩
  rw [hsame.1]
  simp only [Holdings.put, Set.mem_insert_iff, h₁ hash, Delivery.sent, List.mem_cons]
  tauto

end Mirrors

/-! Drains. -/

/-- One id of the queue, with the providers before and after its turn. -/
structure Turn (Hash : Type) where
  id : Hash
  before : Depot Hash
  after : Depot Hash
  delivered : Bool

inductive Turns (F : Formats Bytes Hash) (providers : List String) :
    Depot Hash → List (Turn Hash) → Depot Hash → Prop
  | nil (s : Depot Hash) : Turns F providers s [] s
  | cons {s s' s'' : Depot Hash} {id : Hash} {delivered : Bool} {turns : List (Turn Hash)}
      (h : Runs (DrainStep F) s (Drain.deliver F providers id) s' (.ok delivered))
      (rest : Turns F providers s' turns s'') :
      Turns F providers s (⟨id, s, s', delivered⟩ :: turns) s''

/-- What a drain did: its turns, with as many delivered as it counts. -/
structure Drained (F : Formats Bytes Hash) (providers : List String) (s : Depot Hash)
    (drained : Nat) (turns : List (Turn Hash)) : Prop where
  ran : ∃ s', Turns F providers s turns s'
  ids : turns = [] ∨ turns.map Turn.id = s.sidecar.pendingPushes
  count : drained = turns.countP Turn.delivered

section Drains
variable {F : Formats Bytes Hash} {providers : List String} {s s' : Depot Hash}

theorem Turns.runs {turns : List (Turn Hash)} (h : Turns F providers s turns s') :
    ∀ turn ∈ turns, Runs (DrainStep F) turn.before (Drain.deliver F providers turn.id) turn.after
      (.ok turn.delivered) := by
  induction h with
  | nil => exact fun _ h => absurd h List.not_mem_nil
  | cons hrun _ ih =>
    intro turn hturn
    rcases List.mem_cons.mp hturn with rfl | hturn
    · exact hrun
    · exact ih turn hturn

theorem deliverEach_turns {ids still : List Hash} {drained : Nat}
    (h : Runs (DrainStep F) s (Drain.deliverEach F providers ids) s' (.ok (drained, still))) :
    ∃ turns, Turns F providers s turns s' ∧ turns.map Turn.id = ids ∧
      drained = turns.countP Turn.delivered := by
  induction ids generalizing s s' drained still with
  | nil =>
    cases h
    exact ⟨[], .nil _, rfl, rfl⟩
  | cons id rest ih =>
    obtain ⟨delivered, s₁, hdeliver, h⟩ := h.bind_ok
    obtain ⟨⟨more, still'⟩, s₂, heach, h⟩ := h.bind_ok
    obtain ⟨turns, hturns, hids, hcount⟩ := ih heach
    cases delivered <;> cases h <;>
      exact ⟨_, .cons hdeliver hturns, by simp [hids], by simp [hcount]⟩

theorem drainPendingPushes_turns {drained : Nat}
    (h : Runs (DrainStep F) s (Drain.drainPendingPushes F providers) s' (.ok drained)) :
    ∃ turns, Drained F providers s drained turns := by
  have hnone : Drained F providers s 0 [] := ⟨⟨s, .nil s⟩, Or.inl rfl, rfl⟩
  obtain ⟨loaded, s₁, hload, h⟩ := h.bind_ok
  cases hload with
  | call hstep rest =>
    cases rest
    cases hstep with
    | notLoaded e =>
      cases h
      exact ⟨[], hnone⟩
    | loaded =>
      simp only at h
      split at h
      · cases h
        exact ⟨[], hnone⟩
      · obtain ⟨⟨count, still⟩, s₂, heach, h⟩ := h.bind_ok
        obtain ⟨turns, hturns, hids, hcount⟩ := deliverEach_turns heach
        refine ⟨turns, ⟨s₂, hturns⟩, Or.inr hids, ?_⟩
        rw [← hcount]
        simp only at h
        split at h
        · obtain ⟨_, _, -, h⟩ := h.bind_ok
          cases h
          rfl
        · cases h
          rfl

end Drains

/-! What is served. -/

/-- The blobs of a commit that every delivery from the queue uploads. -/
def Delivery.drainSent (d : Delivery Bytes Hash) : List Hash :=
  d.commit.tree.samples :: d.manifest.entries.map SampleEntry.hash

/-- A mirror had the metadata blob, or it comes with the rest. -/
def MirrorCovers (d : Delivery Bytes Hash) (before : Holdings Hash) : Prop :=
  ∀ hash, d.commit.metadata = some hash → hash ∈ before.blobs ∨ hash ∈ d.sent

/-- A provider had what its turn in a drain leaves out, or it comes with the rest. -/
structure DrainCovers (d : Delivery Bytes Hash) (before after : Holdings Hash) : Prop where
  snapshot : d.commit.tree.snapshot ∈ after.unanswered →
    d.commit.tree.snapshot ∈ before.blobs ∨ d.commit.tree.snapshot ∈ d.drainSent
  metadata : ∀ hash, d.commit.metadata = some hash → hash ∈ before.blobs ∨ hash ∈ d.drainSent ∨
    (hash = d.commit.tree.snapshot ∧ d.commit.tree.snapshot ∉ after.unanswered)

section Serves
variable {F : Formats Bytes Hash}

theorem serves_iff {commit : Commit Hash} {manifest : SampleManifest Hash} {s : Holdings Hash} :
    s.Serves commit manifest ↔ commit ∈ s.commits ∧ commit.tree.snapshot ∈ s.blobs ∧
      commit.tree.samples ∈ s.blobs ∧ (∀ hash, commit.metadata = some hash → hash ∈ s.blobs) ∧
      ∀ e ∈ manifest.entries, e.hash ∈ s.blobs := by
  simp only [Holdings.Serves, FilesystemProvider.commitBlobs, List.mem_append, List.mem_cons,
    List.not_mem_nil, or_false, Option.mem_toList, List.mem_map]
  constructor
  · rintro ⟨hc, h⟩
    exact ⟨hc, h _ (Or.inl (Or.inl (Or.inl rfl))), h _ (Or.inl (Or.inl (Or.inr rfl))),
      fun hash hm => h hash (Or.inl (Or.inr hm)), fun e he => h _ (Or.inr ⟨e, he, rfl⟩)⟩
  · rintro ⟨hc, hsnapshot, hsamples, hmetadata, hentries⟩
    refine ⟨hc, ?_⟩
    rintro hash (((rfl | rfl) | hm) | ⟨e, he, rfl⟩)
    · exact hsnapshot
    · exact hsamples
    · exact hmetadata hash hm
    · exact hentries e he

/-- A mirror that took a push serves its commit just when it has the metadata blob. -/
theorem toMirror_serves_iff {d : Delivery Bytes Hash} (hd : d.Complete F) {s s' : Holdings Hash}
    (h : Runs (StoreStep F) s d.toMirror s' (.ok ())) :
    s'.Serves d.commit d.manifest ↔ MirrorCovers d s := by
  obtain ⟨hcommit, hblobs⟩ := leaves_pushToMirror.run h
  rw [serves_iff]
  constructor
  · rintro ⟨-, -, -, hmetadata, -⟩ hash hm
    exact (hblobs hash).mp (hmetadata hash hm)
  · intro hcovers
    refine ⟨hcommit, (hblobs _).mpr (Or.inr List.mem_cons_self),
      (hblobs _).mpr (Or.inr (List.mem_cons_of_mem _ List.mem_cons_self)),
      fun hash hm => (hblobs hash).mpr (hcovers hash hm), fun e he => (hblobs _).mpr (Or.inr ?_)⟩
    exact List.mem_cons_of_mem _ (List.mem_cons_of_mem _ (hd.entries e he))

/-- What an id fetches is the commit that was pushed under it. -/
theorem fetches_delivery (hF : F.Lawful) {d : Delivery Bytes Hash} (hd : d.Complete F)
    {fetched : Fetched Bytes Hash} (hf : Fetches F d.commit.id fetched)
    (hg : fetched.commit.Genuine F) : fetched.commit = d.commit ∧ fetched.sent = d.drainSent := by
  have hcommit : fetched.commit = d.commit := genuine_ext hF hg hd.genuine hf.commit
  have hbytes : fetched.manifestBytes = d.manifestBytes := by
    refine hF.hash_injective ?_
    rw [hf.samples, hd.samples, hcommit]
  have hmanifest : fetched.manifest = d.manifest := by
    have h := hf.manifest
    rw [hbytes, hF.decode_manifest _ _ hd.manifest] at h
    exact (Except.ok.inj h).symm
  refine ⟨hcommit, ?_⟩
  simp only [Fetched.sent, Delivery.drainSent, hcommit, hf.blobs, hmanifest]

/-- A provider whose turn counted serves the commit just when nothing that was left out is missing. -/
theorem turn_serves_iff (hF : F.Lawful) {d : Delivery Bytes Hash} (hd : d.Complete F)
    {providers : List String} (hnodup : providers.Nodup) {s s' : Depot Hash}
    (h : Runs (DrainStep F) s (Drain.deliver F providers d.commit.id) s' (.ok true))
    {p : String} (hp : p ∈ providers) :
    (s'.store p).Serves d.commit d.manifest ↔ DrainCovers d (s.store p) (s'.store p) := by
  obtain ⟨events, hplays, hhears⟩ := runs_heard h
  have hlearns : Learns F (fun _ _ => True) _ (Drain.deliver F providers d.commit.id) [] :=
    learns_deliver fun _ _ _ => trivial
  obtain ⟨-, hdelivered⟩ := hlearns.run (hhears [])
  obtain ⟨fetched, delivered, hdelivered, heq⟩ := hdelivered rfl
  simp only [List.nil_append] at heq
  subst heq
  cases hdelivered with
  | @mk reads taken hreads hf hg htaken =>
    obtain ⟨s₁, hread, htake⟩ := hplays.split
    obtain rfl := plays_reads hreads hread
    obtain ⟨hcommit, hsent⟩ := fetches_delivery hF hd hf (hg (List.ne_nil_of_mem hp))
    obtain ⟨hstored, hblobs⟩ := (tookAll_holds htaken hnodup htake).1 p hp
    rw [hcommit] at hstored hblobs
    rw [hsent] at hblobs
    rw [serves_iff]
    constructor
    · rintro ⟨-, hsnapshot, -, hmetadata, -⟩
      refine ⟨fun hmissed => ?_, fun hash hm => (hblobs hash).mp (hmetadata hash hm)⟩
      rcases (hblobs _).mp hsnapshot with h | h | ⟨-, hno⟩
      · exact Or.inl h
      · exact Or.inr h
      · exact absurd hmissed hno
    · rintro ⟨hsnapshot, hmetadata⟩
      refine ⟨hstored, ?_, (hblobs _).mpr (Or.inr (Or.inl List.mem_cons_self)),
        fun hash hm => (hblobs hash).mpr (hmetadata hash hm), fun e he => ?_⟩
      · by_cases hmissed : d.commit.tree.snapshot ∈ (s'.store p).unanswered
        · rcases hsnapshot hmissed with h | h
          · exact (hblobs _).mpr (Or.inl h)
          · exact (hblobs _).mpr (Or.inr (Or.inl h))
        · exact (hblobs _).mpr (Or.inr (Or.inr ⟨rfl, hmissed⟩))
      · exact (hblobs _).mpr (Or.inr (Or.inl
          (List.mem_cons_of_mem _ (List.mem_map_of_mem he))))

/-- A mirror that acknowledged a commit can serve it, and a provider for which a drain counted it
can, exactly where the metadata blob, and a snapshot whose probe failed, were there before. -/
theorem acknowledged_serves (hF : F.Lawful) {R : Readers Bytes Hash} [DecidableEq Hash]
    {request : PushRequest Client Bytes Hash} {d : Delivery Bytes Hash}
    (hd : Push.Produces F R request d) :
    (∀ s s', Runs (StoreStep F) s d.toMirror s' (.ok ()) →
      (s'.Serves d.commit d.manifest ↔ MirrorCovers d s)) ∧
    ∀ providers : List String, providers.Nodup → ∀ s s' drained,
      Runs (DrainStep F) s (Drain.drainPendingPushes F providers) s' (.ok drained) →
        ∃ turns, Drained F providers s drained turns ∧
          ∀ turn ∈ turns, turn.id = d.commit.id → turn.delivered = true → ∀ p ∈ providers,
            ((turn.after.store p).Serves d.commit d.manifest ↔
              DrainCovers d (turn.before.store p) (turn.after.store p)) := by
  have hcomplete := produces_complete hF hd
  refine ⟨fun s s' h => toMirror_serves_iff hcomplete h, fun providers hnodup s s' drained h => ?_⟩
  obtain ⟨turns, hdrained⟩ := drainPendingPushes_turns h
  refine ⟨turns, hdrained, fun turn hturn hid hdelivered p hp => ?_⟩
  obtain ⟨s₁, hturns⟩ := hdrained.ran
  have hrun := hturns.runs turn hturn
  rw [hid, hdelivered] at hrun
  exact turn_serves_iff hF hcomplete hnodup hrun hp

end Serves

/-! A first push. -/

/-- What the first push of a document hands to its mirrors. -/
def firstDelivery (R : Readers Term Term) (document : Value) : Option (Delivery Term Term) :=
  match (Shared.start.alone symbolic 1 0 (pushOf 0 document)
      (Push.upToMirrors symbolic R (pushOf 0 document))).2 with
  | .ok (.inr d) => some d
  | _ => none

theorem firstDelivery_produces {R : Readers Term Term} {document : Value} {d : Delivery Term Term}
    (h : firstDelivery R document = some d) :
    Push.Produces symbolic R (pushOf 0 document) d := by
  unfold firstDelivery at h
  split at h
  · rename_i hr
    cases h
    exact returns_alone hr
  · cases h

theorem firstDelivery_such {R : Readers Term Term} {document : Value}
    {test : Delivery Term Term → Bool} (h : (firstDelivery R document).any test = true) :
    ∃ d, Push.Produces symbolic R (pushOf 0 document) d ∧ test d = true := by
  obtain ⟨d, hd, ht⟩ := (Option.any_eq_true test _).mp h
  exact ⟨d, firstDelivery_produces hd, ht⟩

/-- Readers that summarize a project, as those of Live Sets do. -/
def summarizing : Readers Term Term :=
  { nativeReaders with projectInfo := fun v => some (.pair (.text "summary") (.value v)) }

theorem runs_mirrorPutSamples {F : Formats Bytes Hash} {blobs : List (Hash × Bytes)}
    (h : ∀ b ∈ blobs, F.contentHash b.2 = b.1) (s : Holdings Hash) :
    ∃ s', Runs (StoreStep F) s (mirrorPutSamples blobs) s' (.ok ()) := by
  induction blobs generalizing s with
  | nil => exact ⟨s, .done s ()⟩
  | cons blob rest ih =>
    obtain ⟨s', hrest⟩ := ih (fun b hb => h b (List.mem_cons_of_mem _ hb)) (s.put blob.1)
    exact ⟨s', .call (.stored (h blob List.mem_cons_self)) hrest⟩

/-- A mirror where nothing fails takes what a push hands over. -/
theorem runs_toMirror {F : Formats Bytes Hash} {d : Delivery Bytes Hash} (hd : d.Complete F)
    (s : Holdings Hash) : ∃ s', Runs (StoreStep F) s d.toMirror s' (.ok ()) := by
  obtain ⟨s', hsamples⟩ := runs_mirrorPutSamples hd.blobs (s.put d.commit.tree.snapshot)
  exact ⟨_, .call (.stored hd.snapshot) (hsamples.bind (.call (.stored hd.samples)
    (.call (.storedCommit hd.genuine) (.call (.advance _ _ (.ok .advanced)) (.done _ ())))))⟩

/-- A native project has no summary, so its first push to an empty mirror is served from there. -/
theorem acknowledged_serves_native : ∃ d s', Push.Produces symbolic nativeReaders
    (pushOf 0 (song "C" "Untitled")) d ∧ Runs (StoreStep symbolic) .empty d.toMirror s' (.ok ()) ∧
      s'.Serves d.commit d.manifest := by
  obtain ⟨d, hd, ht⟩ := firstDelivery_such (R := nativeReaders)
    (show (firstDelivery nativeReaders (song "C" "Untitled")).any
      (fun d => decide (d.commit.metadata = none)) = true by rfl)
  obtain ⟨s', hrun⟩ := runs_toMirror (produces_complete symbolic_lawful hd) .empty
  refine ⟨d, s', hd, hrun, ((acknowledged_serves symbolic_lawful hd).1 .empty s' hrun).mpr ?_⟩
  intro hash hm
  rw [of_decide_eq_true ht] at hm
  cases hm

/-- A project with a summary: the mirror took the push and cannot serve its commit. -/
theorem acknowledged_without_metadata : ∃ d s', Push.Produces symbolic summarizing
    (pushOf 0 (song "C" "Untitled")) d ∧ Runs (StoreStep symbolic) .empty d.toMirror s' (.ok ()) ∧
      ¬ s'.Serves d.commit d.manifest := by
  obtain ⟨d, hd, ht⟩ := firstDelivery_such
    (show (firstDelivery summarizing (song "C" "Untitled")).any
      (fun d => d.commit.metadata.any fun hash => decide (hash ∉ d.sent)) = true by rfl)
  have hcomplete := produces_complete symbolic_lawful hd
  obtain ⟨s', hrun⟩ := runs_toMirror hcomplete .empty
  refine ⟨d, s', hd, hrun, fun hserves => ?_⟩
  obtain ⟨hash, hm, hno⟩ := (Option.any_eq_true _ _).mp ht
  rcases (toMirror_serves_iff hcomplete hrun).mp hserves hash hm with h | h
  · exact h
  · exact of_decide_eq_true hno h

end AuruPm
