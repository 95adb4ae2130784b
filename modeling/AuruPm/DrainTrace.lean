import AuruPm.Holdings

/-!
# What a drain has heard

The calls of a drain with their answers, in order. What a drain knows, it knows from this
trace: where an id was delivered, the trace shows it fetched and every provider taking it.
-/

namespace AuruPm

set_option autoImplicit false

open SortedAssoc Threads

variable {Bytes Hash : Type}

/-- A call with its answer. -/
abbrev Event (Bytes Hash : Type) := Σ call : DrainCall Bytes Hash, Except Error call.Answer

namespace Event

def store {provider : String} {call : StoreCall Bytes Hash} (r : Except Error call.Answer) :
    Event Bytes Hash :=
  ⟨.onProvider provider call, r⟩

def put (provider : String) (hash : Hash) (bytes : Bytes) : Event Bytes Hash :=
  ⟨.onProvider provider (.putBlob hash bytes), .ok ()⟩

def putCommit (provider : String) (commit : Commit Hash) : Event Bytes Hash :=
  ⟨.onProvider provider (.putCommit commit), .ok ()⟩

/-- What is read is what was asked for, and a commit that is accepted has its own id. -/
def Honest (F : Formats Bytes Hash) : Event Bytes Hash → Prop
  | ⟨.onProvider _ (.getBlob hash), .ok bytes⟩ => F.contentHash bytes = hash
  | ⟨.onProvider _ (.getCommit id), .ok commit⟩ => commit.id = id
  | ⟨.onProvider _ (.putCommit commit), .ok _⟩ => commit.Genuine F
  | _ => True

def IsRead : Event Bytes Hash → Prop
  | ⟨.onProvider _ (.getBlob _), _⟩ => True
  | ⟨.onProvider _ (.getCommit _), _⟩ => True
  | _ => False

end Event

/-- One more call with an honest answer. -/
inductive Hears (F : Formats Bytes Hash) : List (Event Bytes Hash) → (call : DrainCall Bytes Hash) →
    Except Error call.Answer → List (Event Bytes Hash) → Prop
  | mk {t : List (Event Bytes Hash)} {call : DrainCall Bytes Hash} {r : Except Error call.Answer}
      (h : Event.Honest F ⟨call, r⟩) : Hears F t call r (t ++ [⟨call, r⟩])

/-- The commit of this id, with the objects it names. -/
structure Fetches (F : Formats Bytes Hash) (id : Hash) (fetched : Fetched Bytes Hash) : Prop where
  commit : fetched.commit.id = id
  snapshot : F.contentHash fetched.snapshotBytes = fetched.commit.tree.snapshot
  samples : F.contentHash fetched.manifestBytes = fetched.commit.tree.samples
  manifest : F.decodeManifest fetched.manifestBytes = .ok fetched.manifest
  blobs : fetched.sampleBlobs.map Prod.fst = fetched.manifest.entries.map SampleEntry.hash

/-- The probe for the snapshot, and its upload where the answer was no. -/
inductive Probed (fetched : Fetched Bytes Hash) (provider : String) : List (Event Bytes Hash) → Prop
  | unanswered (e : Error) : Probed fetched provider
      [⟨.onProvider provider (.hasBlobs [fetched.commit.tree.snapshot]), .error e⟩]
  | present {present : List Bool} (h : present.head?.getD false = true) : Probed fetched provider
      [⟨.onProvider provider (.hasBlobs [fetched.commit.tree.snapshot]), .ok present⟩]
  | uploaded (present : List Bool) : Probed fetched provider
      [⟨.onProvider provider (.hasBlobs [fetched.commit.tree.snapshot]), .ok present⟩,
        .put provider fetched.commit.tree.snapshot fetched.snapshotBytes]

/-- All that a provider is told while it takes a commit. -/
inductive Took (id : Hash) (fetched : Fetched Bytes Hash) (provider : String) :
    List (Event Bytes Hash) → Prop
  | mk {probe : List (Event Bytes Hash)} (h : Probed fetched provider probe)
      (r : Except Error (HeadAdvance Hash)) : Took id fetched provider
        (probe ++ (fetched.sampleBlobs.map (fun b => .put provider b.1 b.2) ++
          [.put provider fetched.commit.tree.samples fetched.manifestBytes,
            .putCommit provider fetched.commit,
            ⟨.onProvider provider (.advanceHead none id), r⟩]))

/-- Each provider took the commit in its turn. -/
inductive TookAll (id : Hash) (fetched : Fetched Bytes Hash) :
    List String → List (Event Bytes Hash) → Prop
  | nil : TookAll id fetched [] []
  | cons {provider : String} {rest : List String} {events more : List (Event Bytes Hash)}
      (h : Took id fetched provider events) (hr : TookAll id fetched rest more) :
      TookAll id fetched (provider :: rest) (events ++ more)

/-- An id was fetched, and then each provider took it. -/
inductive Delivered (F : Formats Bytes Hash) (providers : List String) (id : Hash)
    (fetched : Fetched Bytes Hash) : List (Event Bytes Hash) → Prop
  | mk {reads taken : List (Event Bytes Hash)} (hreads : ∀ event ∈ reads, event.IsRead)
      (hf : Fetches F id fetched) (hg : providers ≠ [] → fetched.commit.Genuine F)
      (h : TookAll id fetched providers taken) : Delivered F providers id fetched (reads ++ taken)

theorem prefix_snoc {t t' : List (Event Bytes Hash)} {event : Event Bytes Hash} (h : t <+: t') :
    t <+: t' ++ [event] :=
  h.trans (List.prefix_append _ _)

/-- Nothing but reads in between. -/
def OnlyReads (t t' : List (Event Bytes Hash)) : Prop :=
  ∃ reads, t' = t ++ reads ∧ ∀ event ∈ reads, event.IsRead

theorem OnlyReads.refl (t : List (Event Bytes Hash)) : OnlyReads t t :=
  ⟨[], (List.append_nil t).symm, fun _ h => absurd h List.not_mem_nil⟩

theorem OnlyReads.read {t t' : List (Event Bytes Hash)} {event : Event Bytes Hash}
    (h : OnlyReads (t ++ [event]) t') (hread : event.IsRead) : OnlyReads t t' := by
  obtain ⟨reads, rfl, hreads⟩ := h
  refine ⟨event :: reads, by simp, fun e he => ?_⟩
  rcases List.mem_cons.mp he with rfl | he
  · exact hread
  · exact hreads e he

theorem OnlyReads.blob {t t' : List (Event Bytes Hash)} {provider : String} {hash : Hash}
    {r : Except Error Bytes}
    (h : OnlyReads (t ++ [⟨.onProvider provider (.getBlob hash), r⟩]) t') : OnlyReads t t' :=
  h.read trivial

theorem OnlyReads.commit {t t' : List (Event Bytes Hash)} {provider : String} {id : Hash}
    {r : Except Error (Commit Hash)}
    (h : OnlyReads (t ++ [⟨.onProvider provider (.getCommit id), r⟩]) t') : OnlyReads t t' :=
  h.read trivial

theorem OnlyReads.trans {t t' t'' : List (Event Bytes Hash)} (h : OnlyReads t t')
    (h' : OnlyReads t' t'') : OnlyReads t t'' := by
  obtain ⟨reads, rfl, hreads⟩ := h
  obtain ⟨more, rfl, hmore⟩ := h'
  refine ⟨reads ++ more, by simp, fun e he => ?_⟩
  rcases List.mem_append.mp he with he | he
  · exact hreads e he
  · exact hmore e he

section Specs
variable {F : Formats Bytes Hash} {may : List (Event Bytes Hash) → DrainCall Bytes Hash → Prop}
variable {t : List (Event Bytes Hash)} {id : Hash} {fetched : Fetched Bytes Hash}
variable {provider : String} {α β : Type}

/-- What a part of a drain has heard when it ends well. -/
abbrev Learns (F : Formats Bytes Hash) (may : List (Event Bytes Hash) → DrainCall Bytes Hash → Prop)
    (post : α → List (Event Bytes Hash) → Prop) (x : Drain Bytes Hash α)
    (t : List (Event Bytes Hash)) : Prop :=
  Meets Eq (Hears F) may (onOk post) x t

theorem learns_pure {post : α → List (Event Bytes Hash) → Prop} {a : α} (h : post a t) :
    Learns F may post (pure a) t := by
  rintro _ rfl
  exact h

theorem learns_bind {mid : α → List (Event Bytes Hash) → Prop}
    {post : β → List (Event Bytes Hash) → Prop} {x : Drain Bytes Hash α}
    {f : α → Drain Bytes Hash β} (hx : Learns F may mid x t)
    (hf : ∀ a t', mid a t' → Learns F may post (f a) t') : Learns F may post (x >>= f) t :=
  Meets.bind_ok (fun _ => rfl) hx hf

theorem learns_attempt {post : α → List (Event Bytes Hash) → Prop} {call : DrainCall Bytes Hash}
    {f : Except Error call.Answer → Drain Bytes Hash α} (hmay : may t call)
    (hf : ∀ r, Event.Honest F ⟨call, r⟩ → Learns F may post (f r) (t ++ [⟨call, r⟩])) :
    Learns F may post (Drain.attempt call >>= f) t := by
  rintro _ rfl
  refine ⟨hmay, ?_⟩
  rintro r _ ⟨h⟩
  exact hf r h

variable (hmay : ∀ t provider call, may t (.onProvider provider call))
include hmay

theorem learns_fetchSamples {entries : List (SampleEntry Hash)} :
    Learns F may (fun blobs t' => OnlyReads t t' ∧ ∀ b, blobs = some b →
      b.map Prod.fst = entries.map SampleEntry.hash) (Drain.fetchSamples provider entries) t := by
  induction entries generalizing t with
  | nil =>
    refine learns_pure ⟨.refl t, fun b hb => ?_⟩
    cases hb
    rfl
  | cons entry rest ih =>
    refine learns_attempt (hmay _ _ _) fun r _ => ?_
    cases r with
    | error e => exact learns_pure ⟨.blob (.refl _), fun b hb => by cases hb⟩
    | ok bytes =>
      refine learns_bind ih fun blobs t' ⟨hreads, hblobs⟩ => learns_pure ⟨hreads.blob, ?_⟩
      intro b hb
      obtain ⟨more, hmore, rfl⟩ := Option.map_eq_some_iff.mp hb
      simp only [List.map_cons, hblobs more hmore]

theorem learns_fetchFrom :
    Learns F may (fun result t' => OnlyReads t t' ∧ ∀ fetched, result = some fetched →
      Fetches F id fetched) (Drain.fetchFrom F id provider) t := by
  refine learns_attempt (hmay _ _ _) fun commit hid => ?_
  cases commit with
  | error e => exact learns_pure ⟨.commit (.refl _), fun _ h => by cases h⟩
  | ok commit =>
    refine learns_attempt (hmay _ _ _) fun snapshotBytes hsnapshot => ?_
    cases snapshotBytes with
    | error e => exact learns_pure ⟨.commit (.blob (.refl _)), fun _ h => by cases h⟩
    | ok snapshotBytes =>
      refine learns_attempt (hmay _ _ _) fun manifestBytes hsamples => ?_
      cases manifestBytes with
      | error e =>
        exact learns_pure ⟨.commit (.blob (.blob (.refl _))),
          fun _ h => by cases h⟩
      | ok manifestBytes =>
        simp only
        split
        · exact learns_pure ⟨.commit (.blob (.blob (.refl _))),
            fun _ h => by cases h⟩
        · rename_i manifest hmanifest
          refine learns_bind (learns_fetchSamples hmay) fun blobs t' ⟨hreads, hblobs⟩ =>
            learns_pure ⟨.commit (.blob (.blob hreads)), ?_⟩
          intro fetched hf
          obtain ⟨b, hb, rfl⟩ := Option.map_eq_some_iff.mp hf
          exact ⟨hid, hsnapshot, hsamples, hmanifest, hblobs b hb⟩

theorem learns_fetch {providers : List String} :
    Learns F may (fun result t' => OnlyReads t t' ∧ ∀ fetched, result = some fetched →
      Fetches F id fetched) (Drain.fetch F id providers) t := by
  induction providers generalizing t with
  | nil => exact learns_pure ⟨.refl t, fun _ h => by cases h⟩
  | cons provider rest ih =>
    refine learns_bind (learns_fetchFrom hmay) fun result t' ⟨hreads, hf⟩ => ?_
    cases result with
    | some fetched => exact learns_pure ⟨hreads, hf⟩
    | none => exact ih.weaken_ok fun _ _ h => ⟨hreads.trans h.1, h.2⟩

theorem learns_putSamples {blobs : List (Hash × Bytes)} :
    Learns F may (fun all t' => t <+: t' ∧ (all = true →
      t' = t ++ blobs.map fun b => .put provider b.1 b.2)) (Drain.putSamples provider blobs) t := by
  induction blobs generalizing t with
  | nil => exact learns_pure ⟨List.prefix_rfl, fun _ => by simp⟩
  | cons blob rest ih =>
    refine learns_attempt (hmay _ _ _) fun r _ => ?_
    cases r with
    | error e => exact learns_pure ⟨List.prefix_append _ _, fun h => by cases h⟩
    | ok _ =>
      refine ih.weaken_ok fun all t' ⟨hmore, hall⟩ => ?_
      refine ⟨(List.prefix_append _ _).trans hmore, fun h => ?_⟩
      rw [hall h]
      simp [Event.put]

theorem learns_putSnapshot :
    Learns F may (fun took t' => t <+: t' ∧ (took = true →
      ∃ probe, Probed fetched provider probe ∧ t' = t ++ probe))
      (Drain.putSnapshot provider fetched) t := by
  refine learns_attempt (hmay _ _ _) fun r _ => ?_
  cases r with
  | error e =>
    exact learns_pure ⟨List.prefix_append _ _, fun _ => ⟨_, .unanswered e, rfl⟩⟩
  | ok present =>
    simp only
    split
    · rename_i hp
      exact learns_pure ⟨List.prefix_append _ _, fun _ => ⟨_, .present hp, rfl⟩⟩
    · refine learns_attempt (hmay _ _ _) fun r _ => ?_
      rw [List.append_assoc]
      cases r with
      | error e => exact learns_pure ⟨List.prefix_append _ _, fun h => by cases h⟩
      | ok _ => exact learns_pure ⟨List.prefix_append _ _, fun _ => ⟨_, .uploaded present, rfl⟩⟩

theorem learns_deliverTo :
    Learns F may (fun took t' => t <+: t' ∧ (took = true →
      ∃ events, Took id fetched provider events ∧ fetched.commit.Genuine F ∧ t' = t ++ events))
      (Drain.deliverTo id fetched provider) t := by
  refine learns_bind (learns_putSnapshot hmay) fun took t₁ ⟨h₁, hprobe⟩ => ?_
  cases took with
  | false => exact learns_pure ⟨h₁, fun h => by cases h⟩
  | true =>
    obtain ⟨probe, hp, rfl⟩ := hprobe rfl
    refine learns_bind (learns_putSamples hmay) fun took t₂ ⟨h₂, hsamples⟩ => ?_
    cases took with
    | false => exact learns_pure ⟨h₁.trans h₂, fun h => by cases h⟩
    | true =>
      rw [hsamples rfl] at h₂ ⊢
      refine learns_attempt (hmay _ _ _) fun r _ => ?_
      cases r with
      | error e =>
        exact learns_pure ⟨prefix_snoc (h₁.trans h₂), fun h => by cases h⟩
      | ok _ =>
        refine learns_attempt (hmay _ _ _) fun r hgenuine => ?_
        cases r with
        | error e =>
          exact learns_pure ⟨prefix_snoc (prefix_snoc (h₁.trans h₂)), fun h => by cases h⟩
        | ok _ =>
          refine learns_attempt (hmay _ _ _) fun r _ => ?_
          refine learns_pure ⟨prefix_snoc (prefix_snoc (prefix_snoc (h₁.trans h₂))), fun _ => ?_⟩
          exact ⟨_, .mk hp r, hgenuine, by simp [Event.put, Event.putCommit]⟩

theorem learns_deliverAll {providers : List String} :
    Learns F may (fun all t' => t <+: t' ∧ (all = true →
      ∃ events, TookAll id fetched providers events ∧
        (providers ≠ [] → fetched.commit.Genuine F) ∧ t' = t ++ events))
      (Drain.deliverAll id fetched providers) t := by
  induction providers generalizing t with
  | nil =>
    exact learns_pure ⟨List.prefix_rfl, fun _ => ⟨[], .nil, fun h => absurd rfl h, by simp⟩⟩
  | cons provider rest ih =>
    refine learns_bind (learns_deliverTo hmay) fun took t₁ ⟨h₁, htook⟩ => ?_
    refine learns_bind ih fun all t₂ ⟨h₂, hall⟩ => learns_pure ⟨h₁.trans h₂, fun h => ?_⟩
    simp only [Bool.and_eq_true] at h
    obtain ⟨events, he, hgenuine, rfl⟩ := htook h.1
    obtain ⟨more, hm, -, rfl⟩ := hall h.2
    exact ⟨_, .cons he hm, fun _ => hgenuine, List.append_assoc ..⟩

theorem learns_deliver {providers : List String} :
    Learns F may (fun delivered t' => t <+: t' ∧ (delivered = true →
      ∃ fetched events, Delivered F providers id fetched events ∧ t' = t ++ events))
      (Drain.deliver F providers id) t := by
  refine learns_bind (learns_fetch hmay) fun result t₁ ⟨⟨reads, hreads, hread⟩, hf⟩ => ?_
  subst hreads
  cases result with
  | none => exact learns_pure ⟨List.prefix_append _ _, fun h => by cases h⟩
  | some fetched =>
    refine (learns_deliverAll hmay).weaken_ok fun all t₂ ⟨h₂, hall⟩ => ?_
    refine ⟨(List.prefix_append _ _).trans h₂, fun h => ?_⟩
    obtain ⟨events, he, hgenuine, rfl⟩ := hall h
    exact ⟨fetched, _, .mk hread (hf fetched rfl) hgenuine he, List.append_assoc ..⟩

/-- Every id of the queue is still pending or was delivered on the way. -/
theorem learns_deliverEach {providers : List String} {ids : List Hash} :
    Learns F may (fun result t' => t <+: t' ∧ ∀ id ∈ ids, id ∈ result.2 ∨
      ∃ fetched events, Delivered F providers id fetched events ∧ events <:+: t')
      (Drain.deliverEach F providers ids) t := by
  induction ids generalizing t with
  | nil => exact learns_pure ⟨List.prefix_rfl, fun _ h => absurd h List.not_mem_nil⟩
  | cons first rest ih =>
    refine learns_bind (learns_deliver hmay) fun delivered t₁ ⟨h₁, hdelivered⟩ => ?_
    refine learns_bind ih fun result t₂ ⟨h₂, hrest⟩ => learns_pure ⟨h₁.trans h₂, fun id hid => ?_⟩
    rcases List.mem_cons.mp hid with rfl | hid
    · cases delivered with
      | false => exact Or.inl List.mem_cons_self
      | true =>
        obtain ⟨fetched, events, he, rfl⟩ := hdelivered rfl
        exact Or.inr ⟨fetched, events, he, (List.suffix_append _ _).isInfix.trans h₂.isInfix⟩
    · rcases hrest id hid with h | h
      · refine Or.inl ?_
        cases delivered with
        | false => exact List.mem_cons_of_mem _ h
        | true => exact h
      · exact Or.inr h

end Specs

end AuruPm
