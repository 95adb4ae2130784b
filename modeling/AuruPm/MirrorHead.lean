import AuruPm.PushCalls
import AuruPm.RunInvariant
import AuruPm.Symbolic

/-!
# The head of a mirror

One client pushes to a primary folder and, each time its commit became `HEAD` there, replays it
to a mirror folder where nothing fails. The mirror is told to advance from no `HEAD` at all, so
it does so once. `HEAD` of the primary never comes back to an earlier version.
-/

namespace AuruPm

set_option autoImplicit false

open SortedAssoc Threads

variable {Client Bytes Hash : Type}

/-! A folder as a mirror. -/

section Mirror
variable [DecidableEq Hash] (F : Formats Bytes Hash)

/-- One call of the provider trait, when nothing fails underneath. -/
def FilesystemProvider.performStore (now : Nat) (p : FilesystemProvider Bytes Hash) :
    (call : StoreCall Bytes Hash) → Except Error (call.Answer × FilesystemProvider Bytes Hash)
  | .hasBlobs hashes => .ok (hashes.map p.blobs.has, p)
  | .getBlob hash => (p.getBlob F {} hash).map fun bytes => (bytes, p)
  | .getCommit id => (p.getCommit F {} id).map fun commit => (commit, p)
  | .putBlob hash bytes => (p.putBlob F now hash bytes).map fun p' => ((), p')
  | .putCommit commit => (p.putCommit F now commit).map fun p' => ((), p')
  | .advanceHead fromHead toHead =>
    (p.advanceHead F {} fromHead toHead).map fun (p', answer) => (answer, p')

/-- A call that succeeds. -/
inductive MirrorStep : FilesystemProvider Bytes Hash → (call : StoreCall Bytes Hash) →
    Except Error call.Answer → FilesystemProvider Bytes Hash → Prop
  | answered {p p' : FilesystemProvider Bytes Hash} {call : StoreCall Bytes Hash} (now : Nat)
      {answer : call.Answer} (h : p.performStore F now call = .ok (answer, p')) :
      MirrorStep p call (.ok answer) p'

variable {F} {p p' : FilesystemProvider Bytes Hash}

/-- Calls other than an advance. -/
def StoreCall.IsObject : StoreCall Bytes Hash → Prop
  | .advanceHead _ _ => False
  | _ => True

theorem mirrorStep_object {call : StoreCall Bytes Hash} {r : Except Error call.Answer}
    (hcall : call.IsObject) (h : MirrorStep F p call r p') : p'.head = p.head ∧ p'.floor = p.floor := by
  cases h with
  | answered now h =>
    cases call with
    | advanceHead => exact False.elim hcall
    | hasBlobs hashes =>
      cases h
      exact ⟨rfl, rfl⟩
    | getBlob hash =>
      obtain ⟨_, _, heq⟩ := map_ok_iff.mp h
      cases heq
      exact ⟨rfl, rfl⟩
    | getCommit id =>
      obtain ⟨_, _, heq⟩ := map_ok_iff.mp h
      cases heq
      exact ⟨rfl, rfl⟩
    | putBlob hash bytes =>
      obtain ⟨q, hq, heq⟩ := map_ok_iff.mp h
      cases heq
      obtain ⟨blobs, -, rfl⟩ := map_ok_iff.mp hq
      exact ⟨rfl, rfl⟩
    | putCommit commit =>
      obtain ⟨q, hq, heq⟩ := map_ok_iff.mp h
      cases heq
      obtain ⟨-, _, _, -, -, rfl⟩ := FilesystemProvider.putCommit_ok hq
      exact ⟨rfl, rfl⟩

/-- A folder without a floor, and with this `HEAD`. -/
structure FilesystemProvider.AtHead (p : FilesystemProvider Bytes Hash) (head : Option Hash) :
    Prop where
  head : p.head = headOf head.toList
  floor : p.floor = .missing

omit [DecidableEq Hash] in
theorem FilesystemProvider.AtHead.readHead {head : Option Hash} (h : p.AtHead head) :
    p.readHead {} = .ok head := by
  simp only [FilesystemProvider.readHead, h.head]
  cases head <;> rfl

/-- An advance from nothing sets the head where there is none. -/
theorem FilesystemProvider.AtHead.advance {head : Option Hash} (h : p.AtHead head) {id : Hash}
    {r : Except Error (HeadAdvance Hash)} (hstep : MirrorStep F p (.advanceHead none id) r p') :
    p'.AtHead (some (head.getD id)) := by
  cases hstep with
  | answered now hp =>
    obtain ⟨⟨q, answer⟩, hq, heq⟩ := map_ok_iff.mp hp
    cases heq
    have hfloor : p.readHistoryFloor {} = .ok none := by
      simp [FilesystemProvider.readHistoryFloor, h.floor, orFail]
    simp only [FilesystemProvider.advanceHead, h.readHead, hfloor, orFail, bind, Except.bind, pure,
      Except.pure] at hq
    cases head with
    | none =>
      cases hq
      exact ⟨rfl, h.floor⟩
    | some c =>
      cases hq
      exact ⟨h.head, h.floor⟩

theorem FilesystemProvider.AtHead.object {head : Option Hash} (h : p.AtHead head)
    {call : StoreCall Bytes Hash} {r : Except Error call.Answer} (hcall : call.IsObject)
    (hstep : MirrorStep F p call r p') : p'.AtHead head := by
  obtain ⟨hhead, hfloor⟩ := mirrorStep_object hcall hstep
  exact ⟨hhead.trans h.head, hfloor.trans h.floor⟩

/-! A replayed commit. -/

/-- `pushToMirror` before it advances the head. -/
def storeOnMirror (commit : Commit Hash) (snapshotBytes manifestBytes : Bytes)
    (sampleBlobs : List (Hash × Bytes)) : MirrorPush Bytes Hash Unit := do
  askMirror (.putBlob commit.tree.snapshot snapshotBytes) "mirror put snapshot"
  mirrorPutSamples sampleBlobs
  askMirror (.putBlob commit.tree.samples manifestBytes) "mirror put samples"
  askMirror (.putCommit commit) "mirror put commit"

omit [DecidableEq Hash] in
theorem pushToMirror_eq (commit : Commit Hash) (snapshotBytes manifestBytes : Bytes)
    (sampleBlobs : List (Hash × Bytes)) :
    pushToMirror commit snapshotBytes manifestBytes sampleBlobs =
      storeOnMirror commit snapshotBytes manifestBytes sampleBlobs >>= fun _ =>
        Prog.attempt (StoreCall.advanceHead none commit.id) >>= fun _ => pure () := by
  simp only [pushToMirror, storeOnMirror, Prog.bind_assoc]

omit [DecidableEq Hash] in
theorem only_mirrorPutSamples (blobs : List (Hash × Bytes)) :
    (mirrorPutSamples blobs).Only StoreCall.IsObject := by
  induction blobs with
  | nil => trivial
  | cons blob rest ih => exact (Prog.only_run trivial).bind fun _ => ih

omit [DecidableEq Hash] in
theorem only_storeOnMirror (commit : Commit Hash) (snapshotBytes manifestBytes : Bytes)
    (sampleBlobs : List (Hash × Bytes)) :
    (storeOnMirror commit snapshotBytes manifestBytes sampleBlobs).Only StoreCall.IsObject :=
  (Prog.only_run trivial).bind fun _ => (only_mirrorPutSamples sampleBlobs).bind fun _ =>
    (Prog.only_run trivial).bind fun _ => Prog.only_run trivial

/-- The first commit that is replayed to a mirror stays its head. -/
theorem FilesystemProvider.AtHead.replay {head : Option Hash} (h : p.AtHead head)
    {d : Delivery Bytes Hash} (hrun : Runs (MirrorStep F) p d.toMirror p' (.ok ())) :
    p'.AtHead (some (head.getD d.commit.id)) := by
  rw [Delivery.toMirror, pushToMirror_eq] at hrun
  obtain ⟨_, p₁, hstore, hrest⟩ := hrun.bind_ok
  have h₁ : p₁.AtHead head := by
    have hm : Meets Eq (MirrorStep F) (fun _ _ => True) (fun _ p => p.AtHead head)
        (storeOnMirror d.commit d.snapshotBytes d.manifestBytes d.sampleBlobs) p :=
      Meets.invariant (fun q q' he hq => he ▸ hq) (fun call q r q' hcall hs hq => hq.object hcall hs)
        (fun _ _ _ _ => trivial) (only_storeOnMirror ..) h
    exact hm.run hstore
  cases hrest with
  | call hstep rest =>
    cases rest
    exact h₁.advance hstep

end Mirror

/-! `HEAD` of the primary. -/

/-- Every published version is a commit on top of the one before it, and none comes twice. -/
structure Chained (F : Formats Bytes Hash) (s : Shared Client Bytes Hash) : Prop where
  nodup : s.versions.Nodup
  onTop : ∀ newer id before, s.versions = newer ++ id :: before →
    ∃ commit : Commit Hash, commit.Genuine F ∧ commit.id = id ∧
      commit.parents.getLast? = before.head?

theorem head?_ne_of_nodup {α : Type} {newer before : List α} {a : α}
    (h : (newer ++ a :: before).Nodup) : before.head? ≠ (newer ++ a :: before).head? := by
  intro heq
  rw [List.nodup_append, List.nodup_cons] at h
  obtain ⟨-, ⟨ha, -⟩, hdisjoint⟩ := h
  cases newer with
  | nil => exact ha (List.mem_of_mem_head? heq)
  | cons b newer =>
    exact hdisjoint b List.mem_cons_self b (List.mem_cons_of_mem _ (List.mem_of_mem_head? heq)) rfl

section Primary
variable [DecidableEq Hash] {F : Formats Bytes Hash} {R : Readers Bytes Hash}
variable {s s' : Shared Client Bytes Hash}

omit [DecidableEq Hash] in
/-- The `HEAD` that a commit replaces is the last of its parents. -/
theorem Builds.last_parent {request : PushRequest Client Bytes Hash} {w : Working Bytes Hash}
    {fromHead : Option Hash} {commit : Commit Hash} (h : Builds F R request w fromHead commit) :
    commit.parents.getLast? = fromHead := by
  obtain ⟨prepared, _, _, hd, hfrom, hp, _⟩ := h
  rw [hp, ← hfrom]
  cases hd with
  | fastForward => cases w.localHead <;> rfl
  | first => rfl
  | merge => rfl

theorem Chained.publish (hF : F.Lawful) (h : Chained F s) (hs : Settled F s) {push : Nat}
    {request : PushRequest Client Bytes Hash} {w : Working Bytes Hash} {commit : Commit Hash}
    {fromHead : Option Hash} {p : FilesystemProvider Bytes Hash}
    (hb : Builds F R request w fromHead commit) (hg : commit.Genuine F)
    (hp : s.provider.advanceHead F {} fromHead commit.id = .ok (p, .advanced)) :
    Chained F (s.publish push request commit.id p) := by
  obtain ⟨hhead, -, -⟩ := FilesystemProvider.advanceHead_spec hp
  rw [readHead_headOf hs.head] at hhead
  cases hhead
  have hversions : (s.publish push request commit.id p).versions = commit.id :: s.versions := rfl
  constructor
  · rw [hversions]
    refine List.nodup_cons.mpr ⟨fun hmem => ?_, h.nodup⟩
    obtain ⟨newer, before, hv⟩ := List.append_of_mem hmem
    obtain ⟨old, hold, hid, hlast⟩ := h.onTop newer commit.id before hv
    obtain rfl := genuine_ext hF hold hg hid
    rw [hb.last_parent, hv] at hlast
    exact head?_ne_of_nodup (hv ▸ h.nodup) hlast.symm
  · rintro newer id before hv
    rw [hversions] at hv
    cases newer with
    | nil =>
      cases hv
      exact ⟨commit, hg, rfl, hb.last_parent⟩
    | cons _ newer =>
      rw [List.cons_append, List.cons.injEq] at hv
      exact h.onTop newer id before hv.2

variable [DecidableEq Client]

theorem chained_extension (hF : F.Lawful) (R : Readers Bytes Hash)
    (limits : Limits Client Bytes Hash) :
    Extension (phases F R limits) (Grows F) (Settled F)
      (fun push q => KnowsPhase F push q.1 q.2) (@Chained Client Bytes Hash F)
      (fun _ _ _ => True) where
  stable _ _ _ _ _ _ _ _ _ _ := trivial
  env s s' henv _ _ _ h := by
    rcases henv with ⟨pass, -, rfl⟩ | ⟨client, sidecar, -, rfl⟩
    · exact ⟨h.nodup, h.onTop⟩
    · exact ⟨h.nodup, h.onTop⟩
  begins _ _ _ _ _ _ := trivial
  acts push q s q' s' ha _ hs _ hk _ h _ := by
    refine ⟨?_, trivial⟩
    rcases moves_cases hF ha.2 hs with ⟨hp, -⟩ | ⟨w, commit, _, p, hq, hb, -, hadv, rfl⟩
    · rcases h with ⟨hnodup, htop⟩
      rw [Shared.versions, ← hp] at hnodup htop
      exact ⟨hnodup, htop⟩
    · rw [hq] at hk
      exact h.publish hF hs hb hk.2.1 hadv
  ends push q s s' he _ _ _ _ h _ := by
    obtain ⟨outcome, -, rfl⟩ := he
    exact ⟨h.nodup, h.onTop⟩

/-- Whatever happens, `HEAD` never comes back to a version. -/
theorem head_never_returns {limits : Limits Client Bytes Hash} (hF : F.Lawful)
    (h : Run F R limits s) : s.versions.Nodup ∧ s.provider.readHead {} = .ok s.versions.head? := by
  have ho := (settled_outline hF R limits).extend (chained_extension hF R limits)
  have hstart : Chained F (.start : Shared Client Bytes Hash) :=
    ⟨List.nodup_nil, fun newer id before hv => by
      exact absurd hv.symm (by simp [Shared.versions, Shared.start])⟩
  obtain ⟨hs, hc⟩ := Run.invariant ho ⟨settled_start, hstart⟩ h
  exact ⟨hc.nodup, readHead_headOf hs.head⟩

end Primary

/-! A sequence of pushes. -/

section Sequence
variable [DecidableEq Client] [DecidableEq Hash] (F : Formats Bytes Hash) (R : Readers Bytes Hash)

/-- A push that lists the mirror, becomes `HEAD` of the primary, is replayed to the mirror and
then ends. -/
def Lands (client : Client) (mirror : String) (push : Nat) (s : Shared Client Bytes Hash)
    (m : FilesystemProvider Bytes Hash) (s' : Shared Client Bytes Hash)
    (m' : FilesystemProvider Bytes Hash) (result : Except String (PushOutcome Hash)) : Prop :=
  ∃ (request : PushRequest Client Bytes Hash) (d : Delivery Bytes Hash)
    (s₁ : Shared Client Bytes Hash), request.client = client ∧ (mirror, none) ∈ request.mirrors ∧
    Runs (AloneStep F push request) s (Push.upToMirrors F R request) s₁ (.ok (.inr d)) ∧
    Runs (MirrorStep F) m d.toMirror m' (.ok ()) ∧
    Runs (AloneStep F push request) s₁ (Push.finish request d) s' result

/-- A push that ends before it comes to its mirrors. -/
def Stops (client : Client) (push : Nat) (s s' : Shared Client Bytes Hash) : Prop :=
  ∃ (request : PushRequest Client Bytes Hash)
    (result : Except String (PushOutcome Hash ⊕ Delivery Bytes Hash)), request.client = client ∧
    Runs (AloneStep F push request) s (Push.upToMirrors F R request) s' result ∧
    ∀ d, result ≠ .ok (.inr d)

/-- A client that pushes to a folder and to a mirror that is empty at first, with the number of
pushes begun, the folder, the mirror and how many commits were replayed. -/
inductive Mirrored (client : Client) (mirror : String) :
    Nat → Shared Client Bytes Hash → FilesystemProvider Bytes Hash → Nat → Prop
  | start {push : Nat} {s : Shared Client Bytes Hash} (h : RunOf F R anything push s) :
      Mirrored client mirror push s ⟨.missing, .missing, [], []⟩ 0
  | stopped {push n : Nat} {s s' : Shared Client Bytes Hash} {m : FilesystemProvider Bytes Hash}
      (h : Mirrored client mirror push s m n) (hs : Stops F R client push s s') :
      Mirrored client mirror (push + 1) s' m n
  | landed {push n : Nat} {s s' : Shared Client Bytes Hash} {m m' : FilesystemProvider Bytes Hash}
      {result : Except String (PushOutcome Hash)} (h : Mirrored client mirror push s m n)
      (hl : Lands F R client mirror push s m s' m' result) :
      Mirrored client mirror (push + 1) s' m' (n + 1)

variable {F R} {push : Nat} {request : PushRequest Client Bytes Hash}
variable {s s' : Shared Client Bytes Hash}

/-! The sequence is a run. -/

/-- A thread may run on alone to its end. -/
theorem reachable_runs {program : Push Bytes Hash (PushOutcome Hash)}
    {result : Except String (PushOutcome Hash)}
    (hruns : Runs (AloneStep F push request) s program s' result)
    {threads : Nat → Thread (Running Client Bytes Hash)}
    (h : (clients F R anything).Reachable .start ⟨s, threads⟩)
    (hpush : threads push = .running ⟨request, program⟩) :
    ∃ last, (clients F R anything).Reachable .start
      ⟨s', Function.update threads push (.running ⟨request, last⟩)⟩ := by
  induction hruns generalizing threads with
  | done s outcome =>
    refine ⟨.done outcome, ?_⟩
    rw [← hpush, Function.update_eq_self]
    exact h
  | fail s e =>
    refine ⟨.fail e, ?_⟩
    rw [← hpush, Function.update_eq_self]
    exact h
  | @call s s₁ s' c next r result hstep rest ih =>
    have hacts : Acts F anything push ⟨request, .call c next⟩ s ⟨request, next r⟩ s₁ := by
      cases hstep with
      | answered clock hp => exact .answered (by cases c <;> trivial) hp
      | failed e => exact .failed e
    obtain ⟨last, hr⟩ := ih (h.acts hpush hacts) (Function.update_self ..)
    rw [Function.update_idem] at hr
    exact ⟨last, hr⟩

theorem RunOf.runs {result : Except String (PushOutcome Hash)} (h : RunOf F R anything push s)
    (hruns : Runs (AloneStep F push request) s (Push.pushWithOptions F R request) s' result) :
    RunOf F R anything (push + 1) s' := by
  obtain ⟨threads, hr, hw⟩ := h
  obtain ⟨last, hr'⟩ := reachable_runs hruns (hr.begins (hw push (Nat.le_refl push)) ⟨request, rfl⟩)
    (Function.update_self ..)
  rw [Function.update_idem] at hr'
  refine ⟨_, hr', fun other hother => ?_⟩
  rw [Function.update_of_ne (by omega)]
  exact hw other (by omega)

theorem Stops.runOf {client : Client} (h : RunOf F R anything push s)
    (hs : Stops F R client push s s') : RunOf F R anything (push + 1) s' := by
  obtain ⟨request, result, -, hruns, hstops⟩ := hs
  cases result with
  | error e =>
    have hall : Runs (AloneStep F push request) s (Push.pushWithOptions F R request) s' (.error e) := by
      rw [Push.pushWithOptions_eq]
      exact hruns.bind_error
    exact h.runs hall
  | ok end_ =>
    cases end_ with
    | inl outcome =>
      have hall : Runs (AloneStep F push request) s (Push.pushWithOptions F R request) s'
          (.ok outcome) := by
        rw [Push.pushWithOptions_eq]
        exact hruns.bind (.done s' outcome)
      exact h.runs hall
    | inr d => exact absurd rfl (hstops d)

theorem Lands.runOf {client : Client} {mirror : String} {m m' : FilesystemProvider Bytes Hash}
    {result : Except String (PushOutcome Hash)} (h : RunOf F R anything push s)
    (hl : Lands F R client mirror push s m s' m' result) : RunOf F R anything (push + 1) s' := by
  obtain ⟨request, d, s₁, -, -, hup, -, hfinish⟩ := hl
  have hall : Runs (AloneStep F push request) s (Push.pushWithOptions F R request) s' result := by
    rw [Push.pushWithOptions_eq]
    exact hup.bind hfinish
  exact h.runs hall

theorem Mirrored.runOf {client : Client} {mirror : String} {n : Nat}
    {m : FilesystemProvider Bytes Hash} (h : Mirrored F R client mirror push s m n) :
    RunOf F R anything push s := by
  induction h with
  | start h => exact h
  | stopped _ hs ih => exact hs.runOf ih
  | landed _ hl ih => exact hl.runOf ih

/-! What a push does to the published versions. -/

/-- A call publishes nothing, or what it advances `HEAD` to. -/
theorem aloneStep_published {c : Call Bytes Hash} {r : Except Error c.Answer}
    (h : AloneStep F push request s c r s') : s'.published = s.published ∨
      ∃ fromHead toHead, c = .advanceHead fromHead toHead ∧
        s'.published = ⟨push, request, toHead⟩ :: s.published := by
  cases h with
  | failed => exact Or.inl rfl
  | answered clock hp =>
    cases c with
    | advanceHead fromHead toHead =>
      obtain ⟨⟨p, answer⟩, -, heq⟩ := map_ok_iff.mp hp
      cases answer with
      | advanced =>
        cases heq
        exact Or.inr ⟨fromHead, toHead, rfl, rfl⟩
      | conflict current =>
        cases heq
        exact Or.inl rfl
    | now => cases hp; exact Or.inl rfl
    | loadSidecar => cases hp; exact Or.inl rfl
    | saveSidecar => cases hp; exact Or.inl rfl
    | getHead => obtain ⟨_, -, heq⟩ := map_ok_iff.mp hp; cases heq; exact Or.inl rfl
    | putBlob => obtain ⟨_, -, heq⟩ := map_ok_iff.mp hp; cases heq; exact Or.inl rfl
    | getBlob => obtain ⟨_, -, heq⟩ := map_ok_iff.mp hp; cases heq; exact Or.inl rfl
    | putCommit => obtain ⟨_, -, heq⟩ := map_ok_iff.mp hp; cases heq; exact Or.inl rfl
    | getCommit => obtain ⟨_, -, heq⟩ := map_ok_iff.mp hp; cases heq; exact Or.inl rfl

/-- Nothing published is forgotten, whatever the program. -/
theorem meets_grows {α : Type} {start : List (Published Client Bytes Hash)}
    (x : Push Bytes Hash α) (h : start <:+ s.published) :
    Meets Eq (AloneStep F push request) (fun _ _ => True) (fun _ s' => start <:+ s'.published) x s := by
  refine Meets.invariant (fun s s' he h => he ▸ h) (fun c s r s' _ hstep h => ?_)
    (fun _ _ _ _ => trivial) x.only_true h
  rcases aloneStep_published hstep with hp | ⟨_, _, -, hp⟩
  · rwa [hp]
  · rw [hp]
    exact h.trans (List.suffix_cons _ _)

/-- The new version is on top of all that were published before. -/
def OnTopOf (push : Nat) (request : PushRequest Client Bytes Hash)
    (start : List (Published Client Bytes Hash)) (commit : Hash) (s : Shared Client Bytes Hash) :
    Prop :=
  ∃ before, s.published = ⟨push, request, commit⟩ :: before ∧ start <:+ before

theorem meets_publish {start : List (Published Client Bytes Hash)} (h : start <:+ s.published)
    (fromHead : Option Hash) (commit : Commit Hash) :
    Meets Eq (AloneStep F push request) (fun _ _ => True)
      (onOk fun c s' => OnTopOf push request start c.id s')
      (Push.publish fromHead commit : Push Bytes Hash (Commit Hash)) s := by
  refine Meets.run_bind_ok (fun _ _ => trivial) fun s₁ answer s₂ heq hstep => ?_
  subst heq
  cases answer with
  | conflict current => exact fun _ _ => trivial
  | advanced =>
    apply Meets.pure_ok
    rintro _ rfl
    cases hstep with
    | answered clock hp =>
      obtain ⟨⟨p, answer⟩, -, heq⟩ := map_ok_iff.mp hp
      cases answer with
      | advanced =>
        cases heq
        exact ⟨s.published, rfl, h⟩
      | conflict current => cases heq

theorem meets_commitToPrimary {start : List (Published Client Bytes Hash)}
    (h : start <:+ s.published) (prepared : Push.Prepared Bytes Hash) :
    Meets Eq (AloneStep F push request) (fun _ _ => True)
      (onOk fun d s' => OnTopOf push request start d.commit.id s')
      (Push.commitToPrimary F R request prepared) s := by
  refine Meets.ofExcept_bind (fun snapshot _ => ?_) fun _ _ _ _ => trivial
  refine Meets.ofExcept_bind (fun _ _ => ?_) fun _ _ _ _ => trivial
  refine Meets.bind_ok (fun _ => rfl) (meets_grows _ h).always fun bundle s₁ h₁ => ?_
  rw [Push.writeCommitToPrimary_eq]
  refine Meets.bind_ok (fun _ => rfl) (Q := fun commit s' => OnTopOf push request start commit.id s')
    (Meets.bind_ok (fun _ => rfl) (meets_grows _ h₁).always fun commit s₂ h₂ => meets_publish h₂ _ commit)
    fun commit s₃ h₃ => ?_
  refine Meets.ofExcept_bind (fun _ _ => ?_) fun _ _ _ _ => trivial
  exact Meets.pure_ok fun s' heq => heq ▸ h₃

theorem meets_upToMirrors {start : List (Published Client Bytes Hash)} (h : start <:+ s.published) :
    Meets Eq (AloneStep F push request) (fun _ _ => True)
      (onOk fun end_ s' => ∀ d, end_ = .inr d → OnTopOf push request start d.commit.id s')
      (Push.upToMirrors F R request) s := by
  refine Meets.bind_ok (fun _ => rfl) (meets_grows _ h).always fun remoteHead s₁ h₁ => ?_
  refine Meets.bind_ok (fun _ => rfl) (meets_grows _ h₁).always fun sidecar s₂ h₂ => ?_
  refine Meets.bind_ok (fun _ => rfl) (meets_grows _ h₂).always fun reconciled s₃ h₃ => ?_
  cases reconciled with
  | stopped outcome => exact Meets.pure_ok fun _ _ d hd => by cases hd
  | ready prepared =>
    refine Meets.bind_ok (fun _ => rfl) (meets_commitToPrimary h₃ prepared) fun d s₄ h₄ => ?_
    refine Meets.pure_ok fun s' heq d' hd => ?_
    cases hd
    exact heq ▸ h₄

/-- Calls that a push makes on its own machine. -/
def Call.IsLocal : Call Bytes Hash → Prop
  | .now => True
  | .loadSidecar => True
  | .saveSidecar _ => True
  | _ => False

omit [DecidableEq Client] [DecidableEq Hash] in
theorem only_modifySidecar (what : String) (f : Clock → Sidecar Hash → Sidecar Hash) :
    (Push.modifySidecar what f : Push Bytes Hash Unit).Only Call.IsLocal :=
  (Push.only_ask trivial).bind fun _ => (Push.only_ask trivial).bind fun _ => Push.only_ask trivial

omit [DecidableEq Client] in
theorem only_finish (d : Delivery Bytes Hash) : (Push.finish request d).Only Call.IsLocal :=
  (only_modifySidecar ..).bind fun _ => Prog.only_pure _

/-- From the fan-out on a push publishes nothing. -/
theorem finish_published {d : Delivery Bytes Hash} {result : Except String (PushOutcome Hash)}
    (hruns : Runs (AloneStep F push request) s (Push.finish request d) s' result) :
    s'.published = s.published := by
  have hm : Meets Eq (AloneStep F push request) (fun _ _ => True)
      (fun _ s' => s'.published = s.published) (Push.finish request d) s := by
    refine Meets.invariant (fun s s' he h => he ▸ h) (fun c s₁ r s₂ hc hstep h => ?_)
      (fun _ _ _ _ => trivial) (only_finish d) rfl
    rcases aloneStep_published hstep with hp | ⟨_, _, rfl, -⟩
    · rw [hp, h]
    · exact False.elim hc
  exact hm.run hruns

/-- After a push has landed its commit is the newest version, and the mirror has kept its head if
it had one. -/
theorem Lands.heads {client : Client} {mirror : String} {m m' : FilesystemProvider Bytes Hash}
    {result : Except String (PushOutcome Hash)} {head : Option Hash} (hm : m.AtHead head)
    (hl : Lands F R client mirror push s m s' m' result) :
    ∃ id before, s'.versions = id :: before ∧ s.versions <:+ before ∧
      m'.AtHead (some (head.getD id)) := by
  obtain ⟨request, d, s₁, -, -, hup, hmirror, hfinish⟩ := hl
  obtain ⟨before, hpublished, hsuffix⟩ :=
    (meets_upToMirrors (R := R) (List.suffix_refl s.published)).run hup d rfl
  refine ⟨d.commit.id, before.map Published.commit, ?_, ?_, hm.replay hmirror⟩
  · simp only [Shared.versions, finish_published hfinish, hpublished, List.map_cons]
  · exact hsuffix.map _

/-- The mirror has no head until a commit is replayed, and a published version from then on. -/
theorem Mirrored.atHead {client : Client} {mirror : String} {n : Nat}
    {m : FilesystemProvider Bytes Hash} (h : Mirrored F R client mirror push s m n) :
    ∃ head, m.AtHead head ∧ (head = none ↔ n = 0) ∧ ∀ id, head = some id → id ∈ s.versions := by
  induction h with
  | start h => exact ⟨none, ⟨rfl, rfl⟩, by simp, fun id hid => by cases hid⟩
  | @stopped push n s s' m _ hs ih =>
    obtain ⟨head, hm, hn, hmem⟩ := ih
    obtain ⟨request, result, -, hruns, hstops⟩ := hs
    exact ⟨head, hm, hn, fun id hid =>
      ((meets_grows _ (List.suffix_refl s.published)).run hruns |>.map _).subset (hmem id hid)⟩
  | landed _ hl ih =>
    obtain ⟨head, hm, -, hmem⟩ := ih
    obtain ⟨id, before, hversions, hsuffix, hm'⟩ := hl.heads hm
    refine ⟨_, hm', by simp, fun c hc => ?_⟩
    rw [hversions]
    cases head with
    | none =>
      cases hc
      exact List.mem_cons_self
    | some c =>
      cases hc
      exact List.mem_cons_of_mem _ (hsuffix.subset (hmem c rfl))

/-- After a push that reports its commit, the heads of the two folders are the same just when no
commit was replayed to the mirror before. -/
theorem mirror_follows_iff (hF : F.Lawful) {client : Client} {mirror : String} {n : Nat}
    {m m' : FilesystemProvider Bytes Hash} (h : Mirrored F R client mirror push s m n)
    {id : Hash} {wasMerge : Bool} {mirrors : List MirrorResult} {unavailable : List String}
    (hl : Lands F R client mirror push s m s' m' (.ok (.committed id wasMerge mirrors unavailable))) :
    m'.readHead {} = s'.provider.readHead {} ↔ n = 0 := by
  obtain ⟨head, hm, hn, hmem⟩ := h.atHead
  obtain ⟨new, before, hversions, hsuffix, hm'⟩ := hl.heads hm
  obtain ⟨hnodup, hhead⟩ := head_never_returns hF (hl.runOf h.runOf).run
  rw [hversions] at hnodup hhead
  rw [hm'.readHead, hhead, ← hn]
  cases head with
  | none => simp
  | some c =>
    have hold : c ∈ before := hsuffix.subset (hmem c rfl)
    have hne : c ≠ new := fun heq => (List.nodup_cons.mp hnodup).1 (heq ▸ hold)
    simp [hne]

end Sequence

/-! One client, one mirror. -/

/-- A folder and a mirror of it. -/
abbrev Pair := Shared Nat Term Term × FilesystemProvider Term Term

/-- A push of this document that lists the mirror. -/
def mirroredPush (document : Value) : PushRequest Nat Term Term :=
  { pushOf 0 document with mirrors := [("mirror", none)] }

/-- A push at some time that succeeds in all its calls and is replayed. -/
def landOnce (clock : Clock) (push : Nat) (document : Value) (pair : Pair) :
    Option (Pair × PushOutcome Term) := do
  let request := mirroredPush document
  let perform := fun (s : Shared Nat Term Term) (c : Call Term Term) =>
    s.perform symbolic clock push request c
  match ← (Push.upToMirrors symbolic nativeReaders request).succeed perform pair.1 with
  | (s₁, .ok (.inr d)) =>
    match ← d.toMirror.succeed (fun m call => m.performStore symbolic clock.val call) pair.2 with
    | (m, .ok ()) =>
      match ← (Push.finish request d).succeed perform s₁ with
      | (s, .ok outcome) => some ((s, m), outcome)
      | _ => none
    | _ => none
  | _ => none

theorem lands_of_landOnce {clock : Clock} {push : Nat} {document : Value} {pair pair' : Pair}
    {outcome : PushOutcome Term} (h : landOnce clock push document pair = some (pair', outcome)) :
    Lands symbolic nativeReaders 0 "mirror" push pair.1 pair.2 pair'.1 pair'.2 (.ok outcome) := by
  have hcall : ∀ (s : Shared Nat Term Term) c a s',
      s.perform symbolic clock push (mirroredPush document) c = .ok (a, s') →
        AloneStep symbolic push (mirroredPush document) s c (.ok a) s' :=
    fun _ _ _ _ h => .answered clock h
  simp only [landOnce, Option.bind_eq_bind, Option.bind_eq_some_iff] at h
  obtain ⟨⟨s₁, result⟩, hup, h⟩ := h
  split at h
  · rename_i s₁ d heq
    cases heq
    rw [Option.bind_eq_some_iff] at h
    obtain ⟨⟨m, _⟩, hmirror, h⟩ := h
    split at h
    · rename_i m heq
      cases heq
      rw [Option.bind_eq_some_iff] at h
      obtain ⟨⟨s, _⟩, hfinish, h⟩ := h
      split at h
      · rename_i heq
        cases heq
        cases h
        exact ⟨mirroredPush document, d, s₁, rfl, List.mem_singleton.mpr rfl,
          runs_of_succeed hcall hup, runs_of_succeed (fun _ _ _ _ h => .answered clock.val h) hmirror,
          runs_of_succeed hcall hfinish⟩
      · cases h
    · cases h
  · cases h

/-- Two empty folders. -/
def emptyPair : Pair := (Shared.start, ⟨.missing, .missing, [], []⟩)

/-- A first push, with what it reports. -/
def landedFirst : Option (Pair × PushOutcome Term) := landOnce 1 0 (song "C" "Untitled") emptyPair

/-- A second one after it. -/
def landedSecond : Option (Pair × PushOutcome Term) := do
  let first ← landedFirst
  landOnce 2 1 (song "C" "Dawn") first.1

def PushOutcome.isCommitted (outcome : PushOutcome Term) : Bool :=
  match outcome with
  | .committed _ _ _ _ => true
  | _ => false

theorem committed_of_isCommitted {outcome : PushOutcome Term} (h : outcome.isCommitted = true) :
    ∃ id wasMerge mirrors unavailable, outcome = .committed id wasMerge mirrors unavailable := by
  cases outcome with
  | committed id wasMerge mirrors unavailable => exact ⟨id, wasMerge, mirrors, unavailable, rfl⟩
  | needsResolution => cases h
  | needsReview => cases h

theorem landedFirst_committed : ∃ pair outcome, landedFirst = some (pair, outcome) ∧
    outcome.isCommitted = true := by
  have h : landedFirst.any (fun x => x.2.isCommitted) = true := by decide +kernel
  obtain ⟨x, hx, hc⟩ := (Option.any_eq_true _ _).mp h
  exact ⟨x.1, x.2, hx, hc⟩

theorem mirrored_start : Mirrored symbolic nativeReaders 0 "mirror" 0 emptyPair.1 emptyPair.2 0 :=
  .start RunOf.start

/-- The heads agree after the first push. -/
theorem mirror_follows_first : ∃ pair : Pair,
    pair.2.readHead {} = pair.1.provider.readHead {} := by
  obtain ⟨pair, outcome, hfirst, hcommitted⟩ := landedFirst_committed
  obtain ⟨id, wasMerge, mirrors, unavailable, rfl⟩ := committed_of_isCommitted hcommitted
  have hlands := lands_of_landOnce hfirst
  exact ⟨pair, (mirror_follows_iff symbolic_lawful mirrored_start hlands).mpr rfl⟩

/-- After the second push they do not. -/
theorem mirror_stays_behind : ∃ (s s' : Shared Nat Term Term) (m m' : FilesystemProvider Term Term)
    (n : Nat) (id : Term) (wasMerge : Bool) (mirrors : List MirrorResult) (unavailable : List String),
    Mirrored symbolic nativeReaders 0 "mirror" 1 s m n ∧
      Lands symbolic nativeReaders 0 "mirror" 1 s m s' m' (.ok (.committed id wasMerge mirrors unavailable)) ∧
      m'.readHead {} ≠ s'.provider.readHead {} := by
  obtain ⟨pair, outcome, hfirst, -⟩ := landedFirst_committed
  have hsecond : landedSecond.any (fun x => x.2.isCommitted &&
      decide (x.1.2.readHead {} ≠ x.1.1.provider.readHead {})) = true := by decide +kernel
  obtain ⟨⟨pair', outcome'⟩, hx, hc⟩ := (Option.any_eq_true _ _).mp hsecond
  rw [landedSecond, hfirst] at hx
  rw [Bool.and_eq_true, decide_eq_true_eq] at hc
  obtain ⟨id, wasMerge, mirrors, unavailable, rfl⟩ := committed_of_isCommitted hc.1
  exact ⟨pair.1, pair'.1, pair.2, pair'.2, 1, id, wasMerge, mirrors, unavailable,
    .landed mirrored_start (lands_of_landOnce hfirst), lands_of_landOnce hx, hc.2⟩

end AuruPm
