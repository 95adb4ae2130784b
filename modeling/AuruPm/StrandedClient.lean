import AuruPm.Lib.Rely
import AuruPm.UsableRetention

/-!
# Stranded clients

A push that merges reads the version its client last synced with, and that version's snapshot. A
pass knows nothing of other clients' sidecars. Clients are not stranded as long as passes leave
the versions of clients behind `HEAD`, and sidecars are given versions that are there.
-/

namespace AuruPm

set_option autoImplicit false

open SortedAssoc Threads

variable {Client Bytes Hash : Type} [DecidableEq Hash]

/-- The commit and its snapshot can be read. -/
def FilesystemProvider.HasBase (F : Formats Bytes Hash) (p : FilesystemProvider Bytes Hash)
    (id : Hash) : Prop :=
  ∃ commit bytes, p.getCommit F {} id = .ok commit ∧ p.getBlob F {} commit.tree.snapshot = .ok bytes

/-- What the desktop protects when it prunes for this sidecar. -/
def Sidecar.roots (sidecar : Sidecar Hash) : RetentionRoots Hash where
  commits := sidecar.pendingPushes
  blobs :=
    match sidecar.stash with
    | none => []
    | some stash => stash.snapshot :: stash.resources.map Prod.snd

section Limits
variable (F : Formats Bytes Hash)

/-- A pass for some client. -/
def Pass.ByBackend (s : Shared Client Bytes Hash) (pass : Pass Hash) : Prop :=
  pass.grace = retentionGcGraceSecs ∧ ∃ client, pass.roots = (s.sidecar client).roots

/-- The pass keeps the commit and its snapshot, or finds them too young. -/
def Pass.LeavesBase (s : Shared Client Bytes Hash) (pass : Pass Hash) (history : List (Commit Hash))
    (id : Hash) : Prop :=
  (FilesystemProvider.KeepsCommit F pass.rule pass.roots s.provider history id ∨
    ∀ file, (id, file) ∈ s.provider.commits → ¬ Cas.Stale pass.io.commits pass.now pass.grace id file) ∧
  ∀ commit, s.provider.readCommit F {} id = .ok commit →
    FilesystemProvider.KeepsBlob F pass.rule pass.roots s.provider history commit.tree.snapshot ∨
    ∀ file, (commit.tree.snapshot, file) ∈ s.provider.blobs →
      ¬ Cas.Stale pass.io.blobs pass.now pass.grace commit.tree.snapshot file

/-- The pass leaves the version that each client behind `HEAD` last synced with. -/
def Pass.SparesBehind (s : Shared Client Bytes Hash) (pass : Pass Hash) : Prop :=
  ∀ history, s.provider.visibleCommits F {} = .ok history →
    ∀ client id, (s.sidecar client).localHead = some id → s.versions.head? ≠ some id →
      pass.LeavesBase F s history id

/-- Pushes, passes by the desktop, and sidecars restored from a version that is there. -/
def backend : Limits Client Bytes Hash where
  advance _ _ _ := True
  pass s pass := pass.ByBackend s
  restore s sidecar := ∀ id, sidecar.localHead = some id → s.provider.HasBase F id

/-- The same with passes that spare the clients behind `HEAD`. -/
def sparingBehind : Limits Client Bytes Hash where
  advance _ _ _ := True
  pass s pass := pass.ByBackend s ∧ pass.SparesBehind F s
  restore s sidecar := ∀ id, sidecar.localHead = some id → s.provider.HasBase F id

/-- A sidecar that comes to name another version names one that is there. -/
def Tells (s s' : Shared Client Bytes Hash) : Prop :=
  ∀ client id, (s'.sidecar client).localHead = some id →
    (s.sidecar client).localHead = some id ∨ s'.provider.HasBase F id

/-- Every client can read the version that it last synced with. -/
def BasesThere (s : Shared Client Bytes Hash) : Prop :=
  ∀ client id, (s.sidecar client).localHead = some id → s.provider.HasBase F id

/-- When this call is for a push's base or for its snapshot, they are there. -/
def FindsBase (base : Hash) (s : Shared Client Bytes Hash) : Call Bytes Hash → Prop
  | .getCommit id => id = base → ∃ commit, s.provider.getCommit F {} id = .ok commit
  | .getBlob hash => ∀ commit, s.provider.getCommit F {} base = .ok commit →
      hash = commit.tree.snapshot → ∃ bytes, s.provider.getBlob F {} hash = .ok bytes
  | _ => True

end Limits

section Steps
variable {F : Formats Bytes Hash} {s s' : Shared Client Bytes Hash}

theorem FilesystemProvider.HasBase.keeps {p p' : FilesystemProvider Bytes Hash} {id : Hash}
    (h : p.HasBase F id) (hk : p.Keeps F p') : p'.HasBase F id := by
  obtain ⟨commit, bytes, hc, hb⟩ := h
  exact ⟨commit, bytes, hk.commits _ _ hc, hk.blobs _ _ hb⟩

theorem FilesystemProvider.HasBase.finds {base : Hash} (h : s.provider.HasBase F base)
    (c : Call Bytes Hash) : FindsBase F base s c := by
  obtain ⟨commit, bytes, hc, hb⟩ := h
  cases c with
  | getCommit id =>
    rintro rfl
    exact ⟨commit, hc⟩
  | getBlob hash =>
    rintro found hfound rfl
    rw [hc] at hfound
    cases hfound
    exact ⟨bytes, hb⟩
  | _ => trivial

/-- A base that a pass leaves is read as before. -/
theorem Pass.LeavesBase.hasBase {pass : Pass Hash} {history : List (Commit Hash)}
    {plan : FilesystemProvider.Plan Hash}
    (hfor : FilesystemProvider.PlanFor F pass.rule pass.roots s.provider history plan) {id : Hash}
    (h : pass.LeavesBase F s history id) (hb : s.provider.HasBase F id) :
    (FilesystemProvider.swept F pass.io pass.now pass.grace plan s.provider).HasBase F id := by
  obtain ⟨commit, bytes, hc, hbytes⟩ := hb
  refine ⟨commit, bytes, ?_, ?_⟩
  · refine (FilesystemProvider.readCommit_congr
      (FilesystemProvider.get?_sweep_commits pass.now pass.grace plan _ fun file hf => ?_)).trans hc
    exact h.1.imp (hfor.commits id).mp fun hall => hall file hf
  · refine (FilesystemProvider.get_congr
      (FilesystemProvider.get?_sweep_blobs pass.now pass.grace plan _ fun file hf => ?_)).trans hbytes
    exact (h.2 commit hc).imp (hfor.blobs _) fun hall => hall file hf

/-- Every pass leaves `HEAD` and its snapshot. -/
theorem head_leavesBase (hs : Settled F s) (pass : Pass Hash) {history : List (Commit Hash)}
    (hv : s.provider.visibleCommits F {} = .ok history) {id : Hash}
    (hid : s.versions.head? = some id) : pass.LeavesBase F s history id := by
  obtain ⟨commit, older, rfl, rfl, -⟩ := head_visible hs hv hid
  obtain ⟨kept, hkept, -⟩ := retainedPrefix_cons pass.rule commit older
  have hk : FilesystemProvider.KeepsCommit F pass.rule pass.roots s.provider (commit :: older)
      commit.id := FilesystemProvider.retained_kept (by rw [hkept]; exact List.mem_cons_self)
  refine ⟨Or.inl hk, fun found hr => Or.inl ?_⟩
  rw [← FilesystemProvider.readCommit_id _ _ hr] at hk hr
  exact .snapshot hk hr

variable [DecidableEq Client]

theorem BasesThere.prune (hs : Settled F s) (h : BasesThere F s) {pass : Pass Hash}
    (hspare : pass.SparesBehind F s) : BasesThere F (s.prune F pass) := by
  intro client id hid
  rcases prune_cases F s pass with heq | ⟨plan, history, hfor, heq, -⟩
  · rw [heq]
    exact h client id hid
  · rw [heq]
    have hleaves : pass.LeavesBase F s history id := by
      by_cases hhead : s.versions.head? = some id
      · exact head_leavesBase hs pass hfor.visible hhead
      · exact hspare history hfor.visible client id hid hhead
    exact hleaves.hasBase hfor (h client id hid)

/-- Calls of pushes take no object away. -/
theorem perform_keeps {clock : Clock} {push : Nat} {request : PushRequest Client Bytes Hash}
    {c : Call Bytes Hash} {answer : c.Answer}
    (h : s.perform F clock push request c = .ok (answer, s')) : s.provider.Keeps F s'.provider := by
  cases c with
  | now => cases h; exact .refl _
  | loadSidecar => cases h; exact .refl _
  | saveSidecar sidecar => cases h; exact .refl _
  | getHead => obtain ⟨_, -, heq⟩ := map_ok_iff.mp h; cases heq; exact .refl _
  | getBlob hash => obtain ⟨_, -, heq⟩ := map_ok_iff.mp h; cases heq; exact .refl _
  | getCommit id => obtain ⟨_, -, heq⟩ := map_ok_iff.mp h; cases heq; exact .refl _
  | advanceHead fromHead toHead =>
    obtain ⟨⟨p, result⟩, hr, heq⟩ := map_ok_iff.mp h
    cases result with
    | advanced =>
      cases heq
      obtain ⟨-, rfl, -⟩ := FilesystemProvider.advanceHead_spec hr
      exact ⟨fun _ _ h => h, fun _ _ h => h⟩
    | conflict current =>
      cases heq
      exact .refl _
  | putBlob hash bytes =>
    obtain ⟨p, hr, heq⟩ := map_ok_iff.mp h
    cases heq
    obtain ⟨blobs, hput, rfl⟩ := map_ok_iff.mp hr
    exact ⟨fun k content hk => Cas.get_put hput hk, fun _ _ hc => hc⟩
  | putCommit commit =>
    obtain ⟨p, hr, heq⟩ := map_ok_iff.mp h
    cases heq
    obtain ⟨-, bytes, commits, -, hput, rfl⟩ := FilesystemProvider.putCommit_ok hr
    refine ⟨fun _ _ hb => hb, fun id found hfound => ?_⟩
    obtain ⟨content, d, hget, hd, rfl⟩ := FilesystemProvider.readCommit_ok_iff.mp hfound
    exact FilesystemProvider.readCommit_ok_iff.mpr ⟨content, d, Cas.get_put hput hget, hd, rfl⟩

theorem aloneStep_keeps {push : Nat} {request : PushRequest Client Bytes Hash}
    {c : Call Bytes Hash} {r : Except Error c.Answer} (h : AloneStep F push request s c r s') :
    s.provider.Keeps F s'.provider := by
  cases h with
  | answered clock hp => exact perform_keeps hp
  | failed => exact .refl _

omit [DecidableEq Client] in
theorem BasesThere.tells (h : BasesThere F s) (hk : s.provider.Keeps F s'.provider)
    (ht : Tells F s s') : BasesThere F s' := by
  intro client id hid
  rcases ht client id hid with hold | hnew
  · exact (h client id hold).keeps hk
  · exact hnew

end Steps

section Runs
variable [DecidableEq Client] (F : Formats Bytes Hash) (R : Readers Bytes Hash)

/-- A run in which sidecars come to name only versions that are there. -/
def TellingRun (limits : Limits Client Bytes Hash) :
    World (Shared Client Bytes Hash) Nat (Running Client Bytes Hash) → Prop :=
  Relation.ReflTransGen
    (fun w w' => (clients F R limits).Step w w' ∧ Tells F w.shared w'.shared)
    ⟨.start, fun _ => .waiting⟩

variable {F R} {limits : Limits Client Bytes Hash} {s : Shared Client Bytes Hash}
variable {threads : Nat → Thread (Running Client Bytes Hash)}

theorem TellingRun.reachable {w : World (Shared Client Bytes Hash) Nat (Running Client Bytes Hash)}
    (h : TellingRun F R limits w) : (clients F R limits).Reachable .start w := by
  induction h with
  | refl => exact .start
  | tail _ hs ih => exact ih.step hs.1

theorem basesThere_step (hF : F.Lawful)
    {w w' : World (Shared Client Bytes Hash) Nat (Running Client Bytes Hash)}
    (hr : (clients F R (sparingBehind F)).Reachable .start w) (h : BasesThere F w.shared)
    (hs : (clients F R (sparingBehind F)).Step w w') (ht : Tells F w.shared w'.shared) :
    BasesThere F w'.shared := by
  cases hs with
  | env henv =>
    rcases henv with ⟨pass, hpass, rfl⟩ | ⟨client, sidecar, -, rfl⟩
    · have hs := Run.invariant (settled_outline hF R (sparingBehind F)) settled_start ⟨_, hr⟩
      exact h.prune hs hpass.2
    · exact h.tells (.refl _) ht
  | begins => exact h
  | acts _ ha =>
    cases ha with
    | answered _ hp => exact h.tells (perform_keeps hp) ht
    | failed => exact h
  | ends _ he =>
    obtain ⟨outcome, -, rfl⟩ := he
    exact h
  | abandon => exact h

theorem basesThere_run (hF : F.Lawful)
    {w : World (Shared Client Bytes Hash) Nat (Running Client Bytes Hash)}
    (h : TellingRun F R (sparingBehind F) w) : BasesThere F w.shared := by
  induction h with
  | refl => exact fun client id hid => by cases hid
  | tail hrun hs ih => exact basesThere_step hF (TellingRun.reachable hrun) ih hs.1 hs.2

/-- No push finds its base gone, whatever happens while it runs that leaves the base in place. -/
theorem push_finds_base (hF : F.Lawful) (h : TellingRun F R (sparingBehind F) ⟨s, threads⟩)
    {request : PushRequest Client Bytes Hash} {base : Hash}
    (hbase : (s.sidecar request.client).localHead = some base) (push : Nat) :
    Meets (fun s s' => s.provider.HasBase F base → s'.provider.HasBase F base)
      (AloneStep F push request) (FindsBase F base) (fun _ _ => True)
      (Push.pushWithOptions F R request) s := by
  have hthere : s.provider.HasBase F base := basesThere_run hF h _ _ hbase
  have hkept : Meets (fun s s' => s.provider.HasBase F base → s'.provider.HasBase F base)
      (AloneStep F push request) (FindsBase F base) (fun _ s => s.provider.HasBase F base)
      (Push.pushWithOptions F R request) s :=
    Meets.invariant (fun _ _ hrely hs => hrely hs)
      (fun _ _ _ _ _ hstep hs => hs.keeps (aloneStep_keeps hstep)) (fun _ c _ hs => hs.finds c)
      (Prog.only_true _) hthere
  exact hkept.weaken fun _ _ _ => trivial

end Runs

/-! Runs of whole pushes. -/

theorem tells_save [DecidableEq Client] {F : Formats Bytes Hash} {s : Shared Client Bytes Hash}
    {client : Client} {sidecar : Sidecar Hash}
    (h : ∀ id, sidecar.localHead = some id → s.provider.HasBase F id) :
    Tells F s (s.save client sidecar) := by
  intro other id hid
  simp only [Shared.save, Function.update_apply] at hid
  split at hid
  · exact Or.inr (h id hid)
  · exact Or.inl hid

section Whole
variable [DecidableEq Client] {F : Formats Bytes Hash} {R : Readers Bytes Hash}
variable {limits : Limits Client Bytes Hash} {s : Shared Client Bytes Hash} {n : Nat}

/-- A telling run in which only the first `n` pushes have begun. -/
def TellingRunOf (F : Formats Bytes Hash) (R : Readers Bytes Hash)
    (limits : Limits Client Bytes Hash) (n : Nat) (s : Shared Client Bytes Hash) : Prop :=
  ∃ threads, TellingRun F R limits ⟨s, threads⟩ ∧ ∀ push, n ≤ push → threads push = .waiting

theorem TellingRunOf.start : TellingRunOf F R limits 0 (.start : Shared Client Bytes Hash) :=
  ⟨_, .refl, fun _ _ => rfl⟩

theorem TellingRunOf.prune (h : TellingRunOf F R limits n s) (pass : Pass Hash)
    (hpass : limits.pass s pass) : TellingRunOf F R limits n (s.prune F pass) := by
  obtain ⟨threads, hr, hw⟩ := h
  exact ⟨threads, hr.tail ⟨.env (Or.inl ⟨pass, hpass, rfl⟩), fun _ _ hid => Or.inl hid⟩, hw⟩

theorem TellingRunOf.restore (h : TellingRunOf F R limits n s) (client : Client)
    (sidecar : Sidecar Hash) (hs : limits.restore s sidecar)
    (hbase : ∀ id, sidecar.localHead = some id → s.provider.HasBase F id) :
    TellingRunOf F R limits n (s.save client sidecar) := by
  obtain ⟨threads, hr, hw⟩ := h
  exact ⟨threads, hr.tail ⟨.env (Or.inr ⟨client, sidecar, hs, rfl⟩), tells_save hbase⟩, hw⟩

variable {test : Shared Client Bytes Hash → Call Bytes Hash → Bool}

/-- A call of a push tells the truth unless it saves a sidecar. -/
theorem tells_of_perform {clock : Clock} {push : Nat} {request : PushRequest Client Bytes Hash}
    {c : Call Bytes Hash} {answer : c.Answer} {s' : Shared Client Bytes Hash}
    (hsave : ∀ sidecar, c = .saveSidecar sidecar →
      ∀ id, sidecar.localHead = some id → s.provider.HasBase F id)
    (h : s.perform F clock push request c = .ok (answer, s')) : Tells F s s' := by
  cases c with
  | saveSidecar sidecar =>
    cases h
    exact tells_save (hsave sidecar rfl)
  | advanceHead fromHead toHead =>
    obtain ⟨⟨p, result⟩, -, heq⟩ := map_ok_iff.mp h
    cases result <;> cases heq <;> exact fun _ _ hid => Or.inl hid
  | now => cases h; exact fun _ _ hid => Or.inl hid
  | loadSidecar => cases h; exact fun _ _ hid => Or.inl hid
  | getHead => obtain ⟨_, -, heq⟩ := map_ok_iff.mp h; cases heq; exact fun _ _ hid => Or.inl hid
  | putBlob => obtain ⟨_, -, heq⟩ := map_ok_iff.mp h; cases heq; exact fun _ _ hid => Or.inl hid
  | getBlob => obtain ⟨_, -, heq⟩ := map_ok_iff.mp h; cases heq; exact fun _ _ hid => Or.inl hid
  | putCommit => obtain ⟨_, -, heq⟩ := map_ok_iff.mp h; cases heq; exact fun _ _ hid => Or.inl hid
  | getCommit => obtain ⟨_, -, heq⟩ := map_ok_iff.mp h; cases heq; exact fun _ _ hid => Or.inl hid

theorem TellingRunOf.push (hmay : ∀ s c, limits.Allow s c)
    (htest : ∀ s sidecar, test s (.saveSidecar sidecar) = true →
      ∀ id, sidecar.localHead = some id → s.provider.HasBase F id)
    (h : TellingRunOf F R limits n s) (clock : Clock) (request : PushRequest Client Bytes Hash)
    (hall : s.allCalls F test clock n request (Push.pushWithOptions F R request) = true) :
    TellingRunOf F R limits (n + 1) (s.pushAlone F R clock n request) := by
  obtain ⟨threads, hr, hw⟩ := h
  have hbegun : TellingRun F R limits ⟨s, Function.update threads n (.running ⟨request, _⟩)⟩ :=
    hr.tail ⟨.begins (hw n (Nat.le_refl n)) ⟨request, rfl⟩, fun _ _ hid => Or.inl hid⟩
  obtain ⟨last, hr', hlast⟩ := alone_keeps (TellingRun F R limits)
    (fun s threads c next answer s' hrun hpush hc hp => hrun.tail
      ⟨.acts hpush (.answered (hmay s c) hp), tells_of_perform (fun sidecar heq => by
        subst heq
        exact htest s sidecar hc) hp⟩)
    (fun s threads c next e hrun hpush => hrun.tail
      ⟨.acts hpush (.failed e), fun _ _ hid => Or.inl hid⟩)
    hbegun (Function.update_self ..) hall
  rw [Function.update_idem] at hr'
  have hwait : ∀ t, ∀ push, n + 1 ≤ push → Function.update threads n t push = .waiting := by
    intro t push hpush
    rw [Function.update_of_ne (by omega)]
    exact hw push (by omega)
  unfold Shared.pushAlone
  split
  · rename_i s' outcome heq
    rw [heq] at hr' hlast
    obtain rfl := hlast outcome rfl
    have hend := hr'.tail ⟨.ends (Function.update_self ..) ⟨outcome, rfl, rfl⟩,
      fun _ _ hid => Or.inl hid⟩
    rw [Function.update_idem] at hend
    exact ⟨_, hend, hwait _⟩
  · rename_i s' e heq
    rw [heq] at hr'
    exact ⟨_, hr', hwait _⟩

end Whole

/-! One client prunes and another merges. -/

theorem hasBase_of_isOk {p : FilesystemProvider Term Term} {id : Term}
    (h : (p.getCommit symbolic {} id >>= fun commit =>
      p.getBlob symbolic {} commit.tree.snapshot).isOk = true) : p.HasBase symbolic id := by
  obtain ⟨bytes, hb⟩ := exists_of_isOk h
  obtain ⟨commit, hc, hbytes⟩ := bind_ok_iff.mp hb
  exact ⟨commit, bytes, hc, hbytes⟩

/-- A pass that keeps the newest version, for a client with nothing under way. -/
theorem keepNewest_byBackend {s : Shared Nat Term Term} (client now : Nat)
    (h : (s.sidecar client).pendingPushes = [] ∧ (s.sidecar client).stash = none) :
    (keepNewest now).ByBackend s := by
  refine ⟨rfl, client, ?_⟩
  rw [Sidecar.roots, h.1, h.2]
  rfl

/-- The second client synced with the first version, which a pass after the second collects. -/
def strandedSecond : Shared Nat Term Term :=
  let s := oldVersion.save 1 (restoredAt oldVersion)
  (s.pushAlone symbolic nativeReaders 10000 1 (pushOf 0 (song "C" "Dawn"))).prune symbolic
    (keepNewest 10001)

theorem strandedSecond_run : Run symbolic nativeReaders (backend symbolic) strandedSecond := by
  have hmay : ∀ (s : Shared Nat Term Term) c, (backend symbolic).Allow s c := fun _ c => by
    cases c <;> trivial
  have hold : RunOf symbolic nativeReaders (backend symbolic) 1 oldVersion := RunOf.start.push hmay 1 _
  have hrestored := hold.restore 1 (restoredAt oldVersion) fun id hid => by
    refine hasBase_of_isOk ?_
    have hhead : oldVersion.versions.head? = some id := hid
    have hall : oldVersion.versions.head?.all (fun id => (oldVersion.provider.getCommit symbolic {} id
        >>= fun commit => oldVersion.provider.getBlob symbolic {} commit.tree.snapshot).isOk) = true := by
      decide +kernel
    rw [hhead] at hall
    exact hall
  refine ((hrestored.push hmay 10000 _).prune (keepNewest 10001) ?_).run
  exact keepNewest_byBackend 0 10001 (by decide +kernel)

/-- Its next push fails. -/
theorem push_misses_base : ∃ (s : Shared Nat Term Term) (base : Term),
    Run symbolic nativeReaders (backend symbolic) s ∧
      (s.sidecar 1).localHead = some base ∧ s.versions.head? ≠ some base ∧
      (s.alone symbolic 10002 2 (pushOf 1 (song "G" "Untitled")) (Push.pushWithOptions symbolic
        nativeReaders (pushOf 1 (song "G" "Untitled")))).2 =
          .error (during "get ancestor commit" (.notFound (symbolic.hashText base))) := by
  obtain ⟨base, hbase⟩ : ∃ base, (strandedSecond.sidecar 1).localHead = some base :=
    Option.isSome_iff_exists.mp (by decide +kernel)
  refine ⟨strandedSecond, base, strandedSecond_run, hbase, ?_, ?_⟩
  · rw [← hbase]
    decide +kernel
  · change _ = Except.error (during "get ancestor commit" (.notFound "hash"))
    decide +kernel

/-! A pass over young files. -/

/-- Whether the sidecar that a call saves names a version that is there. -/
def savesThere (s : Shared Nat Term Term) : Call Term Term → Bool
  | .saveSidecar sidecar => sidecar.localHead.all fun id =>
    (s.provider.getCommit symbolic {} id >>= fun commit =>
      s.provider.getBlob symbolic {} commit.tree.snapshot).isOk
  | _ => true

theorem hasBase_of_savesThere (s : Shared Nat Term Term) (sidecar : Sidecar Term)
    (h : savesThere s (.saveSidecar sidecar) = true) (id : Term) (hid : sidecar.localHead = some id) :
    s.provider.HasBase symbolic id := by
  simp only [savesThere, hid, Option.all_some] at h
  exact hasBase_of_isOk h

/-- A pass that takes no file to be an hour old leaves everything. -/
theorem leavesBase_of_young {F : Formats Bytes Hash} {s : Shared Client Bytes Hash}
    {rule : RetentionRule} {roots : RetentionRoots Hash} {now grace : Nat}
    (hcommits : ∀ e ∈ s.provider.commits, now - e.2.modified < grace)
    (hblobs : ∀ e ∈ s.provider.blobs, now - e.2.modified < grace) (history : List (Commit Hash))
    (id : Hash) : (Pass.mk {} rule roots now grace).LeavesBase F s history id := by
  refine ⟨Or.inr fun file hfile hstale => ?_, fun _ _ => Or.inr fun file hfile hstale => ?_⟩
  · have hyoung := hcommits _ hfile
    have hold := hstale.2
    simp at hold hyoung
    omega
  · have hyoung := hblobs _ hfile
    have hold := hstale.2
    simp at hold hyoung
    omega

/-- The second client is behind, and a pass finds nothing old. -/
def sparedSecond : Shared Nat Term Term :=
  sharedOnce.pushAlone symbolic nativeReaders 2 1 (pushOf 0 (song "C" "Dawn"))

theorem sparedSecond_run : TellingRunOf symbolic nativeReaders (sparingBehind symbolic) 2
    (sparedSecond.prune symbolic (keepNewest 10)) := by
  have hmay : ∀ (s : Shared Nat Term Term) c, (sparingBehind symbolic).Allow s c := fun _ c => by
    cases c <;> trivial
  have hfirst := TellingRunOf.start.push (R := nativeReaders) hmay hasBase_of_savesThere 1
    (pushOf 0 (song "C" "Untitled")) (by decide +kernel)
  have hbase : ∀ id, (restoredAt oldVersion).localHead = some id →
      oldVersion.provider.HasBase symbolic id :=
    hasBase_of_savesThere oldVersion (restoredAt oldVersion) (by decide +kernel)
  have hsecond := (hfirst.restore 1 (restoredAt oldVersion) hbase hbase).push hmay hasBase_of_savesThere
    2 (pushOf 0 (song "C" "Dawn")) (by decide +kernel)
  refine hsecond.prune (keepNewest 10) ⟨keepNewest_byBackend 0 10 (by decide +kernel), ?_⟩
  exact fun history _ _ id _ _ =>
    leavesBase_of_young (by decide +kernel) (by decide +kernel) history id

/-- The second client merges after the pass. -/
theorem push_finds_base_spared : ∃ (s : Shared Nat Term Term) (base : Term),
    s.provider.floor ≠ .missing ∧ s.versions.head? ≠ some base ∧
      Meets (fun s s' => s.provider.HasBase symbolic base → s'.provider.HasBase symbolic base)
        (AloneStep symbolic 2 (pushOf 1 (song "G" "Untitled"))) (FindsBase symbolic base)
        (fun _ _ => True)
        (Push.pushWithOptions symbolic nativeReaders (pushOf 1 (song "G" "Untitled"))) s := by
  obtain ⟨threads, hrun, -⟩ := sparedSecond_run
  obtain ⟨base, hbase⟩ : ∃ base,
      ((sparedSecond.prune symbolic (keepNewest 10)).sidecar 1).localHead = some base :=
    Option.isSome_iff_exists.mp (by decide +kernel)
  refine ⟨_, base, ?_, ?_, push_finds_base symbolic_lawful hrun hbase 2⟩
  · decide +kernel
  · rw [← hbase]
    decide +kernel

end AuruPm
