import AuruPm.PushCalls
import AuruPm.Symbolic

/-!
# Pushes that do not commit

One push with a provider and a sidecar to itself, where any call may fail. An advance of `HEAD`
that fails may have moved it all the same. What a push changes before it commits is the stash
only, and `HEAD` has moved just when some call failed after that.
-/

namespace AuruPm

set_option autoImplicit false

open SortedAssoc Threads

variable {Client Bytes Hash : Type}

/-- A provider's `HEAD` and the sidecar, with `HEAD` as the push found it and whether a call
failed with `HEAD` no longer there. -/
structure Site (Hash : Type) where
  head : Option Hash
  sidecar : Sidecar Hash
  before : Option Hash
  late : Prop

/-- What a failing call leaves behind. -/
def Site.fail (s : Site Hash) : Site Hash := { s with late := s.late ∨ s.head ≠ s.before }

inductive SiteStep : Site Hash → (c : Call Bytes Hash) → Except Error c.Answer → Site Hash → Prop
  | loaded (s : Site Hash) : SiteStep s .loadSidecar (.ok s.sidecar) s
  | saved (s : Site Hash) (sidecar : Sidecar Hash) :
      SiteStep s (.saveSidecar sidecar) (.ok ()) { s with sidecar := sidecar }
  | gotHead (s : Site Hash) : SiteStep s .getHead (.ok s.head) s
  | advanced {s : Site Hash} {fromHead : Option Hash} (toHead : Hash) (h : s.head = fromHead) :
      SiteStep s (.advanceHead fromHead toHead) (.ok .advanced) { s with head := some toHead }
  | conflict {s : Site Hash} {fromHead : Option Hash} (toHead : Hash) (h : s.head ≠ fromHead) :
      SiteStep s (.advanceHead fromHead toHead) (.ok (.conflict s.head)) s
  | advancedUnanswered {s : Site Hash} {fromHead : Option Hash} (toHead : Hash) (e : Error)
      (h : s.head = fromHead) :
      SiteStep s (.advanceHead fromHead toHead) (.error e) { s with head := some toHead }.fail
  | object {s : Site Hash} {c : Call Bytes Hash} (h : c.IsObject) (a : c.Answer) :
      SiteStep s c (.ok a) s
  | failed {s : Site Hash} (c : Call Bytes Hash) (e : Error) : SiteStep s c (.error e) s.fail

/-- The fields of a sidecar that only a commit changes. -/
structure SameSync (a b : Sidecar Hash) : Prop where
  primary : b.primary = a.primary
  localHead : b.localHead = a.localHead
  remotes : b.remotes = a.remotes
  pendingPushes : b.pendingPushes = a.pendingPushes

/-- Everything is as the push found it, but for the stash. -/
structure Calm (s₀ s : Site Hash) : Prop where
  head : s.head = s₀.head
  before : s.before = s₀.head
  sync : SameSync s₀.sidecar s.sidecar
  early : ¬ s.late

/-- The sidecar is as the push found it, and `HEAD` has moved just when a call failed since. -/
structure Spared (s₀ s : Site Hash) : Prop where
  sync : SameSync s₀.sidecar s.sidecar
  head : s.head = s₀.head ↔ ¬ s.late

/-- How a push that does not commit leaves everything. -/
def SparesUncommitted (s₀ : Site Hash) : Except String (PushOutcome Hash) → Site Hash → Prop
  | .ok (.committed _ _ _ _), _ => True
  | _, s => Spared s₀ s

section Steps
variable {s₀ s s' : Site Hash}

theorem Calm.spared (h : Calm s₀ s) : Spared s₀ s :=
  ⟨h.sync, ⟨fun _ => h.early, fun _ => h.head⟩⟩

/-- After a failing call it is known whether `HEAD` has moved. -/
theorem spared_fail (hbefore : s.before = s₀.head) (hsync : SameSync s₀.sidecar s.sidecar)
    (hearly : ¬ s.late) : Spared s₀ s.fail := by
  refine ⟨hsync, ?_⟩
  simp only [Site.fail, hbefore, not_or, not_not]
  exact ⟨fun h => ⟨hearly, h⟩, fun h => h.2⟩

theorem Calm.fail (h : Calm s₀ s) : Calm s₀ s.fail :=
  ⟨h.head, h.before, h.sync, by simp [Site.fail, h.early, h.head, h.before]⟩

theorem SameSync.trans {a b c : Sidecar Hash} (h : SameSync a b) (h' : SameSync b c) :
    SameSync a c :=
  ⟨h'.primary.trans h.primary, h'.localHead.trans h.localHead, h'.remotes.trans h.remotes,
    h'.pendingPushes.trans h.pendingPushes⟩

theorem Calm.error {c : Call Bytes Hash} {e : Error}
    (hc : ∀ fromHead toHead, c ≠ .advanceHead fromHead toHead) (h : SiteStep s c (.error e) s')
    (hs : Calm s₀ s) : Calm s₀ s' := by
  cases h with
  | failed => exact hs.fail
  | advancedUnanswered => exact absurd rfl (hc _ _)

theorem Calm.object {c : Call Bytes Hash} {r : Except Error c.Answer} (hc : c.IsObject)
    (h : SiteStep s c r s') (hs : Calm s₀ s) : Calm s₀ s' := by
  cases h with
  | object => exact hs
  | failed => exact hs.fail
  | _ => exact False.elim hc

end Steps

/-! Parts of a push that keep calm. -/

/-- The push, alone, keeps calm throughout and ends well only with such a result. -/
abbrev Calmly {α : Type} (s₀ : Site Hash) (post : α → Prop) (x : Push Bytes Hash α)
    (s : Site Hash) : Prop :=
  Meets Eq SiteStep (fun _ _ => True) (fun r s' => Calm s₀ s' ∧ ∀ a, r = .ok a → post a) x s

section Calmly
variable {α β : Type} {s₀ s : Site Hash} {F : Formats Bytes Hash} {R : Readers Bytes Hash}
variable {request : PushRequest Client Bytes Hash}

theorem calmly_pure {post : α → Prop} {a : α} (hs : Calm s₀ s) (h : post a) :
    Calmly s₀ post (pure a : Push Bytes Hash α) s := by
  rintro _ rfl
  refine ⟨hs, fun b hb => ?_⟩
  cases hb
  exact h

theorem calmly_fail {post : α → Prop} {e : String} (hs : Calm s₀ s) :
    Calmly s₀ post (.fail e : Push Bytes Hash α) s := by
  rintro _ rfl
  exact ⟨hs, fun b hb => by cases hb⟩

theorem calmly_bind {mid : α → Prop} {post : β → Prop} {x : Push Bytes Hash α}
    {f : α → Push Bytes Hash β} (hx : Calmly s₀ mid x s)
    (hf : ∀ a s', Calm s₀ s' → mid a → Calmly s₀ post (f a) s') : Calmly s₀ post (x >>= f) s := by
  refine Meets.bind (fun _ => rfl) (hx.weaken fun r s' h => ?_)
  cases r with
  | ok a => exact hf a s' h.1 (h.2 a rfl)
  | error e => exact ⟨h.1, fun b hb => by cases hb⟩

theorem calmly_only {x : Push Bytes Hash α} (hx : x.Only Call.IsObject) (hs : Calm s₀ s) :
    Calmly s₀ x.Returns x s := by
  have h : Meets Eq SiteStep (fun _ _ => True) (fun _ s => Calm s₀ s) x s :=
    Meets.invariant (fun s s' he hc => he ▸ hc) (fun op s r s' hop hstep hc => hc.object hop hstep)
      (fun _ _ _ _ => trivial) hx hs
  exact h.returns

theorem calmly_ask {c : Call Bytes Hash} {what : String} {post : c.Answer → Prop}
    (hc : ∀ fromHead toHead, c ≠ .advanceHead fromHead toHead) (hs : Calm s₀ s)
    (hok : ∀ a s', SiteStep s c (.ok a) s' → Calm s₀ s' ∧ post a) :
    Calmly s₀ post (ask c what) s := by
  rintro _ rfl
  refine ⟨trivial, fun r s' hstep => ?_⟩
  cases r with
  | ok a =>
    obtain ⟨hs', ha⟩ := hok a s' hstep
    exact calmly_pure hs' ha
  | error e => exact calmly_fail (hs.error hc hstep)

theorem calmly_ask_bind {c : Call Bytes Hash} {what : String} {post : α → Prop}
    {f : c.Answer → Push Bytes Hash α} (hc : ∀ fromHead toHead, c ≠ .advanceHead fromHead toHead)
    (hs : Calm s₀ s) (hok : ∀ a s', SiteStep s c (.ok a) s' → Calmly s₀ post (f a) s') :
    Calmly s₀ post (ask c what >>= f) s := by
  rintro _ rfl
  refine ⟨trivial, fun r s' hstep => ?_⟩
  cases r with
  | ok a => exact hok a s' hstep
  | error e => exact calmly_fail (hs.error hc hstep)

theorem calmly_modifySidecar {what : String} {f : Clock → Sidecar Hash → Sidecar Hash}
    (hf : ∀ now sidecar, SameSync sidecar (f now sidecar)) (hs : Calm s₀ s) :
    Calmly s₀ (fun _ => True) (Push.modifySidecar what f : Push Bytes Hash Unit) s := by
  refine calmly_ask_bind (fun _ _ h => by cases h) hs fun sidecar s₁ hload => ?_
  cases hload with
  | object h => exact False.elim h
  | loaded =>
    refine calmly_ask_bind (fun _ _ h => by cases h) hs fun now s₂ hnow => ?_
    cases hnow with
    | object =>
      refine calmly_ask (fun _ _ h => by cases h) hs fun _ s₃ hsave => ?_
      cases hsave with
      | object h => exact False.elim h
      | saved => exact ⟨⟨hs.head, hs.before, hs.sync.trans (hf now s.sidecar), hs.early⟩, trivial⟩

variable [DecidableEq Hash]

theorem calmly_stashSnapshot {base : Option Hash} {reason : String} (hs : Calm s₀ s) :
    Calmly s₀ (fun _ => True) (Push.stashSnapshot F R request base reason) s := by
  refine calmly_bind (calmly_only (Prog.only_ofExcept _) hs) fun _ s₁ hs₁ _ => ?_
  refine calmly_bind (calmly_only (Prog.only_ofExcept _) hs₁) fun _ s₂ hs₂ _ => ?_
  refine calmly_bind (calmly_only (Prog.only_ofExcept _) hs₂) fun _ s₃ hs₃ _ => ?_
  refine calmly_bind (calmly_only (Prog.only_ofExcept _) hs₃) fun _ s₄ hs₄ _ => ?_
  refine calmly_bind (calmly_only Push.only_stashResources hs₄) fun _ s₅ hs₅ _ => ?_
  refine calmly_bind (calmly_only (Push.only_ask trivial) hs₅) fun _ s₆ hs₆ _ => ?_
  refine calmly_bind (calmly_modifySidecar (fun _ _ => ⟨rfl, rfl, rfl, rfl⟩) hs₆) fun _ s₇ hs₇ _ => ?_
  exact calmly_pure hs₇ trivial

/-- What reconciling stops with is not a commit. -/
def Push.Reconciled.Sound : Push.Reconciled Bytes Hash → Prop
  | .ready _ => True
  | .stopped outcome => outcome.Stops

omit [DecidableEq Hash] in
theorem mergeStashed_sound {localId remoteId : Hash} {reconciled : Push.Reconciled Bytes Hash}
    (h : (Push.mergeStashed F R request localId remoteId).Returns reconciled) :
    reconciled.Sound := by
  simp only [Push.mergeStashed, Prog.returns_bind, Prog.returns_ofExcept] at h
  obtain ⟨_, -, _, -, _, -, _, -, _, -, _, -, _, -, _, -, _, -, _, -, merged, hm, h⟩ := h
  cases merged with
  | value merged =>
    obtain rfl := h
    trivial
  | stopped outcome =>
    obtain rfl := h
    exact mergeAll_stops hm

theorem calmly_reconcile {remoteHead localHead : Option Hash} (hs : Calm s₀ s) :
    Calmly s₀ Push.Reconciled.Sound (Push.reconcile F R request remoteHead localHead) s := by
  unfold Push.reconcile
  split
  · exact calmly_pure hs trivial
  · split
    · exact calmly_pure hs trivial
    · split
      · exact calmly_fail hs
      · rw [Push.mergeWithRemote_eq]
        refine calmly_bind (calmly_stashSnapshot hs) fun _ s₁ hs₁ _ => ?_
        refine (calmly_only Push.only_mergeStashed hs₁).weaken fun r s₂ h => ⟨h.1, fun a ha => ?_⟩
        exact mergeStashed_sound (h.2 a ha)

end Calmly

/-! The commit. -/

/-- The push, alone, spares everything when it does not commit. -/
abbrev Spares (s₀ : Site Hash) (x : Push Bytes Hash (PushOutcome Hash)) (s : Site Hash) : Prop :=
  Meets Eq SiteStep (fun _ _ => True) (SparesUncommitted s₀) x s

/-- `HEAD` may have moved, and no call has failed since. -/
structure Moved (s₀ s : Site Hash) : Prop where
  before : s.before = s₀.head
  sync : SameSync s₀.sidecar s.sidecar
  early : ¬ s.late

section Spares
variable {α : Type} {s₀ s s' : Site Hash} {F : Formats Bytes Hash} {R : Readers Bytes Hash}
variable {request : PushRequest Client Bytes Hash}

theorem spares_bind {mid : α → Prop} {x : Push Bytes Hash α}
    {f : α → Push Bytes Hash (PushOutcome Hash)} (hx : Calmly s₀ mid x s)
    (hf : ∀ a s', Calm s₀ s' → mid a → Spares s₀ (f a) s') : Spares s₀ (x >>= f) s := by
  refine Meets.bind (fun _ => rfl) (hx.weaken fun r s' h => ?_)
  cases r with
  | ok a => exact hf a s' h.1 (h.2 a rfl)
  | error e => exact h.1.spared

theorem spares_fail {e : String} (h : Spared s₀ s) :
    Spares s₀ (.fail e : Push Bytes Hash (PushOutcome Hash)) s := by
  rintro _ rfl
  exact h

theorem Moved.spared_error {c : Call Bytes Hash} {e : Error} (hs : Moved s₀ s)
    (h : SiteStep s c (.error e) s') : Spared s₀ s' := by
  cases h with
  | failed => exact spared_fail hs.before hs.sync hs.early
  | advancedUnanswered toHead => exact spared_fail hs.before hs.sync hs.early

theorem Moved.ask_bind (hs : Moved s₀ s) {c : Call Bytes Hash} {what : String}
    {f : c.Answer → Push Bytes Hash (PushOutcome Hash)}
    (hok : ∀ a s', SiteStep s c (.ok a) s' → Spares s₀ (f a) s') :
    Spares s₀ (ask c what >>= f) s := by
  rintro _ rfl
  refine ⟨trivial, fun r s' hstep => ?_⟩
  cases r with
  | ok a => exact hok a s' hstep
  | error e => exact spares_fail (hs.spared_error hstep)

theorem spares_finish [DecidableEq Hash] {d : Delivery Bytes Hash} (hs : Moved s₀ s) :
    Spares s₀ (Push.finish request d) s := by
  unfold Push.finish Push.modifySidecar
  rw [Prog.bind_assoc]
  refine hs.ask_bind fun sidecar s₁ hload => ?_
  cases hload with
  | object h => exact False.elim h
  | loaded =>
    rw [Prog.bind_assoc]
    refine hs.ask_bind fun now s₂ hnow => ?_
    cases hnow with
    | object =>
      refine hs.ask_bind fun _ s₃ _ => ?_
      rintro _ rfl
      trivial

theorem spares_publish_bind {fromHead : Option Hash} {commit : Commit Hash}
    {f : Commit Hash → Push Bytes Hash (PushOutcome Hash)} (hs : Calm s₀ s)
    (hf : ∀ s', Moved s₀ s' → Spares s₀ (f commit) s') :
    Spares s₀ (Push.publish fromHead commit >>= f) s := by
  have hmoved : Moved s₀ s := ⟨hs.before, hs.sync, hs.early⟩
  unfold Push.publish
  rw [Prog.bind_assoc]
  refine hmoved.ask_bind fun answer s₁ hadvance => ?_
  cases hadvance with
  | object h => exact False.elim h
  | advanced => exact hf _ ⟨hs.before, hs.sync, hs.early⟩
  | conflict => exact spares_fail hs.spared

theorem storeCommit_encodes {prepared : Push.Prepared Bytes Hash} {manifest : SampleManifest Hash}
    {commit : Commit Hash} (h : (Push.storeCommit F R request prepared manifest).Returns commit) :
    ∃ bytes, F.encodeManifest manifest = .ok bytes := by
  simp only [Push.storeCommit, Prog.returns_bind, Prog.returns_ofExcept] at h
  obtain ⟨-, -, bytes, hbytes, -⟩ := h
  exact ⟨bytes, wrapped_ok hbytes⟩

variable [DecidableEq Hash]

theorem spares_commitPrepared {prepared : Push.Prepared Bytes Hash} (hs : Calm s₀ s) :
    Spares s₀ (Push.commitPrepared F R request prepared) s := by
  rw [Push.commitPrepared_eq]
  simp only [Push.commitToPrimary, Push.writeCommitToPrimary_eq, Prog.bind_assoc]
  refine spares_bind (calmly_only (Prog.only_ofExcept _) hs) fun _ s₁ hs₁ _ => ?_
  refine spares_bind (calmly_only (Prog.only_ofExcept _) hs₁) fun _ s₂ hs₂ _ => ?_
  refine spares_bind (calmly_only Push.only_buildSampleManifest hs₂) fun bundle s₃ hs₃ _ => ?_
  refine spares_bind (calmly_only Push.only_storeCommit hs₃) fun commit s₄ hs₄ hcommit => ?_
  refine spares_publish_bind hs₄ fun s₅ hs₅ => ?_
  -- the manifest was encoded before `HEAD` moved, so it can be encoded again
  obtain ⟨bytes, hbytes⟩ := storeCommit_encodes hcommit
  rw [hbytes]
  exact spares_finish hs₅

theorem spares_pushWithOptions (hs : Calm s₀ s) :
    Spares s₀ (Push.pushWithOptions F R request) s := by
  have hhead : ∀ what, Calmly s₀ (fun _ => True) (ask .getHead what : Push Bytes Hash _) s :=
    fun what => calmly_ask (fun _ _ h => by cases h) hs fun _ _ h => by
      cases h with
      | gotHead => exact ⟨hs, trivial⟩
      | object h => exact False.elim h
  refine spares_bind (hhead _) fun remoteHead s₁ hs₁ _ => ?_
  have hload : ∀ what, Calmly s₀ (fun _ => True) (ask .loadSidecar what : Push Bytes Hash _) s₁ :=
    fun what => calmly_ask (fun _ _ h => by cases h) hs₁ fun _ _ h => by
      cases h with
      | loaded => exact ⟨hs₁, trivial⟩
      | object h => exact False.elim h
  refine spares_bind (hload _) fun sidecar s₂ hs₂ _ => ?_
  refine spares_bind (calmly_reconcile hs₂) fun reconciled s₃ hs₃ hsound => ?_
  cases reconciled with
  | ready prepared => exact spares_commitPrepared hs₃
  | stopped outcome =>
    rintro _ rfl
    cases outcome with
    | committed => exact False.elim hsound
    | _ => exact hs₃.spared

end Spares

/-- A site as a push finds it. -/
def Site.opened (head : Option Hash) (sidecar : Sidecar Hash) : Site Hash :=
  ⟨head, sidecar, head, False⟩

/-- A push that does not commit leaves the sidecar but for its stash as it was, and `HEAD` too,
unless a call failed once `HEAD` had moved. -/
theorem uncommitted_spares [DecidableEq Hash] (F : Formats Bytes Hash) (R : Readers Bytes Hash)
    (request : PushRequest Client Bytes Hash) (head : Option Hash) (sidecar : Sidecar Hash)
    {s : Site Hash} {result : Except String (PushOutcome Hash)}
    (h : Runs SiteStep (.opened head sidecar) (Push.pushWithOptions F R request) s result) :
    (∃ commitId wasMerge mirrors unavailable,
      result = .ok (.committed commitId wasMerge mirrors unavailable)) ∨
    (SameSync sidecar s.sidecar ∧ (s.head = head ↔ ¬ s.late)) := by
  have hcalm : Calm (.opened head sidecar) (.opened head sidecar) :=
    ⟨rfl, rfl, ⟨rfl, rfl, rfl, rfl⟩, id⟩
  have hspares := (spares_pushWithOptions hcalm).run h
  cases result with
  | error e => exact Or.inr ⟨hspares.sync, hspares.head⟩
  | ok outcome =>
    cases outcome with
    | committed => exact Or.inl ⟨_, _, _, _, rfl⟩
    | needsResolution => exact Or.inr ⟨hspares.sync, hspares.head⟩
    | needsReview => exact Or.inr ⟨hspares.sync, hspares.head⟩

/-- The first push of a document, with the sidecar on a full disk once `HEAD` has moved. -/
theorem canEnd_moved : CanEnd SiteStep (fun s => s.head ≠ none) (.error "save sidecar: io: disk full")
    (Push.pushWithOptions symbolic nativeReaders (pushOf 0 (song "C" "Untitled")))
    (.opened none {}) := by
  have hobject : ∀ (s : Site Term) (c : Call Term Term), c.IsObject → ∀ a, SiteStep s c (.ok a) s :=
    fun _ _ h a => .object h a
  refine .call (.gotHead _) (.call (.loaded _) ?_)
  -- the snapshot, the manifest, the clock and the commit
  refine .call (hobject _ (.putBlob _ _) trivial ()) (.call (hobject _ (.putBlob _ _) trivial ()) ?_)
  refine .call (hobject _ .now trivial 1) (.call (hobject _ (.putCommit _) trivial ()) ?_)
  refine .call (.advanced _ rfl) (.call (.failed _ (.io "disk full")) ?_)
  exact .fail fun h => by cases h

/-- The push fails and `HEAD` has moved. -/
theorem uncommitted_moved : ∃ s e, Runs SiteStep (.opened none {})
    (Push.pushWithOptions symbolic nativeReaders (pushOf 0 (song "C" "Untitled"))) s (.error e) ∧
      s.head ≠ none := by
  obtain ⟨s, hrun, hmoved⟩ := canEnd_moved
  exact ⟨s, _, hrun, hmoved⟩

/-- The sidecar is spared there, and a call failed too late. -/
theorem uncommitted_spares_moved : ∃ s e, Runs SiteStep (.opened none {})
    (Push.pushWithOptions symbolic nativeReaders (pushOf 0 (song "C" "Untitled"))) s (.error e) ∧
      SameSync {} s.sidecar ∧ s.late := by
  obtain ⟨s, hrun, hmoved⟩ := canEnd_moved
  rcases uncommitted_spares symbolic nativeReaders _ none {} hrun with ⟨_, _, _, _, h⟩ | ⟨hsync, hhead⟩
  · cases h
  · exact ⟨s, _, hrun, hsync, not_not.mp fun h => hmoved (hhead.mpr h)⟩

end AuruPm

