import AuruPm.ReadableHistory

/-!
# Usable retention

A retention pass reads the ancestors of every commit that it has to keep, down to the floor that
it is about to write. So passes stay possible as long as no earlier pass has taken a parent away
from a commit that it left.
-/

namespace AuruPm

set_option autoImplicit false

open SortedAssoc Threads

variable {Client Bytes Hash : Type} [DecidableEq Hash]

/-- A commit that is stored together with its manifest. -/
def FilesystemProvider.Intact (F : Formats Bytes Hash) (p : FilesystemProvider Bytes Hash)
    (id : Hash) : Prop :=
  ∃ commit manifest, p.readCommit F {} id = .ok commit ∧ p.readManifest F {} commit = .ok manifest

/-- A pass ends well for every rule, whatever stored commits and blobs it has to protect. -/
def RetentionUsable (F : Formats Bytes Hash) (s : Shared Client Bytes Hash) : Prop :=
  ∀ rule roots now grace, (∀ id ∈ roots.commits, s.provider.Intact F id) →
    ∃ report, (s.provider.pruneHistoryWithGrace F {} rule roots now grace).result = .ok report

/-- The pass ends well. -/
def Pass.Succeeds (F : Formats Bytes Hash) (s : Shared Client Bytes Hash) (pass : Pass Hash) :
    Prop :=
  ∃ report, (s.provider.pruneHistoryWithGrace F pass.io pass.rule pass.roots pass.now
    pass.grace).result = .ok report

/-- Pushes, passes that end well, and sidecars restored from some version. -/
def successfulPasses (F : Formats Bytes Hash) : Limits Client Bytes Hash where
  advance _ _ _ := True
  pass s pass := pass.Succeeds F s
  restore s sidecar := ∀ id, sidecar.localHead = some id → id ∈ s.versions

section Sparing
variable (F : Formats Bytes Hash)

/-- A commit that the pass leaves in place, and its manifest with it. -/
def Pass.Leaves (s : Shared Client Bytes Hash) (pass : Pass Hash) (history : List (Commit Hash))
    (id : Hash) : Prop :=
  (FilesystemProvider.KeepsCommit F pass.rule pass.roots s.provider history id ∨
    ∀ file, (id, file) ∈ s.provider.commits → ¬ Cas.Stale pass.io.commits pass.now pass.grace id file) ∧
  ∀ commit, s.provider.readCommit F {} id = .ok commit →
    FilesystemProvider.KeepsBlob F pass.rule pass.roots s.provider history commit.tree.samples ∨
    ∀ file, (commit.tree.samples, file) ∈ s.provider.blobs →
      ¬ Cas.Stale pass.io.blobs pass.now pass.grace commit.tree.samples file

/-- The pass leaves the parents of every commit that it leaves, `HEAD` excepted when the pass
leaves it as the only version. -/
def Pass.SparesParents (s : Shared Client Bytes Hash) (pass : Pass Hash) : Prop :=
  ∀ history, s.provider.visibleCommits F {} = .ok history →
    ∀ id commit file, s.provider.readCommit F {} id = .ok commit → (id, file) ∈ s.provider.commits →
      (FilesystemProvider.KeepsCommit F pass.rule pass.roots s.provider history id ∨
        ¬ Cas.Stale pass.io.commits pass.now pass.grace id file) →
      ¬ (FilesystemProvider.floorOf pass.rule history = some id ∧ s.versions.head? = some id) →
      ∀ parent ∈ commit.parents, s.provider.Intact F parent → pass.Leaves F s history parent

/-- The parents of `HEAD` are stored with their manifests. -/
def HeadComplete (s : Shared Client Bytes Hash) : Prop :=
  ∀ id commit, s.versions.head? = some id → s.provider.readCommit F {} id = .ok commit →
    ∀ parent ∈ commit.parents, s.provider.Intact F parent

/-- Passes that end well and spare parents, and pushes that store and advance only while the
parents of `HEAD` are there. -/
def sparingParents : Limits Client Bytes Hash where
  store s := HeadComplete F s
  advance s _ _ := HeadComplete F s
  pass s pass := pass.Succeeds F s ∧ pass.SparesParents F s
  restore s sidecar := ∀ id, sidecar.localHead = some id → id ∈ s.versions

/-- The second is a parent of the one commit that has the first as its id. -/
def HasParent (child parent : Hash) : Prop :=
  ∃ commit : Commit Hash, commit.Genuine F ∧ commit.id = child ∧ parent ∈ commit.parents

/-- `HEAD` where the floor is `HEAD` itself, so that no walk goes on from it. -/
def Shared.EndsAt (s : Shared Client Bytes Hash) (id : Hash) : Prop :=
  s.provider.floor = .names id ∧ s.versions.head? = some id

/-- No stored commit has lost a parent, and parents were published before their children. -/
structure Unbroken (s : Shared Client Bytes Hash) : Prop where
  head : ∀ id, s.versions.head? = some id → s.provider.Intact F id
  parents : ∀ id commit, s.provider.readCommit F {} id = .ok commit → ¬ s.EndsAt id →
    ∀ parent ∈ commit.parents, s.provider.Intact F parent
  ordered : ∀ newer id before, s.versions = newer ++ id :: before →
    ∀ parent, HasParent F id parent → parent ∈ before
  descend : ∀ head, s.versions.head? = some head →
    ∀ id ∈ s.versions, Relation.ReflTransGen (HasParent F) head id
  sidecars : ∀ client id, (s.sidecar client).localHead = some id → id ∈ s.versions

/-- What a push knows of the versions it builds on. -/
structure KnowsLocal (w : Working Bytes Hash) (s : Shared Client Bytes Hash) : Prop where
  localHead : ∀ id, w.localHead = some id → id ∈ s.versions
  sidecar : ∀ id, w.sidecar.localHead = some id → id ∈ s.versions

def KnowsBase : Phase Bytes Hash → Shared Client Bytes Hash → Prop
  | .working w, s => KnowsLocal w s
  | .stored w _, s => KnowsLocal w s
  | _, _ => True

end Sparing

section Steps
variable {F : Formats Bytes Hash} {R : Readers Bytes Hash} {s s' : Shared Client Bytes Hash}

theorem FilesystemProvider.Intact.keeps {p p' : FilesystemProvider Bytes Hash} {id : Hash}
    (h : p.Intact F id) (hk : p.Keeps F p') : p'.Intact F id := by
  obtain ⟨commit, manifest, hc, hm⟩ := h
  exact ⟨commit, manifest, hk.commits _ _ hc, hk.readManifest hm⟩

theorem KnowsLocal.grows {w : Working Bytes Hash} (h : Grows F s s') (hk : KnowsLocal w s) :
    KnowsLocal w s' :=
  ⟨fun id hid => h.versions (hk.localHead id hid), fun id hid => h.versions (hk.sidecar id hid)⟩

theorem KnowsBase.grows {phase : Phase Bytes Hash} (h : Grows F s s') (hk : KnowsBase phase s) :
    KnowsBase phase s' := by
  cases phase with
  | working w => exact KnowsLocal.grows h hk
  | stored w commit => exact KnowsLocal.grows h hk
  | started => trivial
  | sawHead => trivial
  | advanced => trivial

omit [DecidableEq Hash] in
/-- A commit builds on the local version and on `HEAD`. -/
theorem Builds.parent_cases {request : PushRequest Client Bytes Hash} {w : Working Bytes Hash}
    {fromHead : Option Hash} {commit : Commit Hash} (h : Builds F R request w fromHead commit)
    {parent : Hash} (hp : parent ∈ commit.parents) :
    w.localHead = some parent ∨ w.remoteHead = some parent := by
  obtain ⟨prepared, _, _, hd, _, hparents, _⟩ := h
  rw [hparents] at hp
  cases hd with
  | fastForward => exact Or.inl (Option.mem_toList.mp hp)
  | first => cases hp
  | merge hl hr =>
    rcases List.mem_cons.mp hp with rfl | hp
    · exact Or.inl hl
    · rw [List.mem_singleton.mp hp]
      exact Or.inr hr

/-- A commit that is read is the one whose parents count. -/
theorem hasParent_iff (hF : F.Lawful) (hs : Settled F s) {id : Hash} {commit : Commit Hash}
    (h : s.provider.readCommit F {} id = .ok commit) {parent : Hash} :
    HasParent F id parent ↔ parent ∈ commit.parents := by
  obtain ⟨hg, hid⟩ := hs.sound.genuine hF h
  constructor
  · rintro ⟨other, ho, hoid, hp⟩
    obtain rfl := genuine_ext hF ho hg (hoid.trans hid.symm)
    exact hp
  · exact fun hp => ⟨commit, hg, hid, hp⟩

/-- With the parents of `HEAD` in place, every version is. -/
theorem Unbroken.versions_intact (hF : F.Lawful) (hs : Settled F s) (h : Unbroken F s)
    (hc : HeadComplete F s) {id : Hash} (hid : id ∈ s.versions) : s.provider.Intact F id := by
  obtain ⟨head, before, hv⟩ := List.exists_cons_of_ne_nil (List.ne_nil_of_mem hid)
  have hhead : s.versions.head? = some head := by rw [hv]; rfl
  have hdesc := h.descend head hhead id hid
  clear hid
  induction hdesc with
  | refl => exact h.head head hhead
  | @tail child parent _ hstep ih =>
    obtain ⟨commit, manifest, hr, -⟩ := ih
    have hp := (hasParent_iff hF hs hr).mp hstep
    by_cases he : s.EndsAt child
    · exact hc child commit he.2 hr parent hp
    · exact h.parents child commit hr he parent hp

/-- Changes that keep the versions, the floor and every object. -/
theorem Unbroken.congr (h : Unbroken F s) (hv : s'.published = s.published)
    (hf : s'.provider.floor = s.provider.floor) (hk : s.provider.Keeps F s'.provider)
    (hparents : ∀ id commit, s'.provider.readCommit F {} id = .ok commit → ¬ s.EndsAt id →
      ∀ parent ∈ commit.parents, s.provider.Intact F parent)
    (hside : ∀ client id, (s'.sidecar client).localHead = some id → id ∈ s.versions) :
    Unbroken F s' := by
  have hversions : s'.versions = s.versions := by rw [Shared.versions, hv]; rfl
  refine ⟨?_, ?_, ?_, ?_, ?_⟩
  · rw [hversions]
    exact fun id hid => (h.head id hid).keeps hk
  · intro id commit hr hne parent hp
    rw [Shared.EndsAt, hversions, hf] at hne
    exact (hparents id commit hr hne parent hp).keeps hk
  · rw [hversions]
    exact h.ordered
  · rw [hversions]
    exact h.descend
  · rw [hversions]
    exact hside

/-! Pushes. -/

/-- Storing one commit makes no other readable. -/
theorem readCommit_of_putCommit {p p' : FilesystemProvider Bytes Hash} {now : Nat}
    {commit : Commit Hash} (h : p.putCommit F now commit = .ok p') {id : Hash}
    (hne : id ≠ commit.id) : p'.readCommit F {} id = p.readCommit F {} id := by
  obtain ⟨-, bytes, commits, -, hput, rfl⟩ := FilesystemProvider.putCommit_ok h
  refine FilesystemProvider.readCommit_congr ?_
  rcases (Cas.put_cases hput).2 with ⟨rfl, -⟩ | ⟨rfl, -⟩
  · rfl
  · exact get?_cons_of_ne hne ..

theorem Unbroken.putCommit (hF : F.Lawful) (hs : Settled F s) (h : Unbroken F s)
    (hc : HeadComplete F s) {request : PushRequest Client Bytes Hash} {w : Working Bytes Hash}
    {fromHead : Option Hash} {commit : Commit Hash} {clock : Clock}
    {p : FilesystemProvider Bytes Hash} (hk : KnowsWork F w s) (hl : KnowsLocal w s)
    (hb : Builds F R request w fromHead commit)
    (hp : s.provider.putCommit F clock.val commit = .ok p) :
    Unbroken F { s with provider := p } := by
  have hrange : commit.InRange := by
    obtain ⟨_, _, _, _, _, _, _, _, _, _, hrange⟩ := hb
    exact hrange
  obtain ⟨-, hkeeps, -, hfloor, -, hread⟩ :=
    FilesystemProvider.putCommit_spec hF hs.sound hrange hp
  refine h.congr rfl hfloor hkeeps (fun id found hr hne parent hparent => ?_) h.sidecars
  by_cases hid : id = commit.id
  · subst hid
    rw [hread] at hr
    cases hr
    refine h.versions_intact hF hs hc ?_
    rcases hb.parent_cases hparent with hlocal | hremote
    · exact hl.localHead parent hlocal
    · exact hk.remoteHead parent hremote
  · rw [readCommit_of_putCommit hp hid] at hr
    exact h.parents id found hr hne parent hparent

/-- What becomes `HEAD` is stored with its manifest. -/
theorem intact_at_advance (hF : F.Lawful) {push : Nat}
    {request : PushRequest Client Bytes Hash} {w : Working Bytes Hash} {commit : Commit Hash}
    {fromHead : Option Hash} {p : FilesystemProvider Bytes Hash}
    (hk : KnowsPhase F push request (.stored w commit) s)
    (hb : Builds F R request w fromHead commit)
    (hp : s.provider.advanceHead F {} fromHead commit.id = .ok (p, .advanced)) :
    s.provider.Intact F commit.id := by
  by_cases hm : s.provider.floor = .missing
  · obtain ⟨_, manifest, bytes, _, _, _, _, _, hencode, hblob, _⟩ := hb
    refine ⟨commit, manifest, hk.2.2 hm, FilesystemProvider.readManifest_ok_iff.mpr ⟨bytes, ?_, ?_⟩⟩
    · exact hk.1.blobsKept hm _ hblob
    · exact hF.decode_manifest manifest bytes hencode
  · obtain ⟨-, -, hvalid⟩ := FilesystemProvider.advanceHead_spec hp
    obtain ⟨found, manifest, hread, hmanifest, -⟩ := hvalid hm
    exact ⟨found, manifest, hread, hmanifest⟩

theorem Unbroken.publish (hF : F.Lawful) (hs : Settled F s) (h : Unbroken F s)
    (hc : HeadComplete F s) {push : Nat} {request : PushRequest Client Bytes Hash}
    {w : Working Bytes Hash} {fromHead : Option Hash} {commit : Commit Hash}
    {p : FilesystemProvider Bytes Hash} (hk : KnowsPhase F push request (.stored w commit) s)
    (hl : KnowsLocal w s) (hb : Builds F R request w fromHead commit)
    (hp : s.provider.advanceHead F {} fromHead commit.id = .ok (p, .advanced)) :
    Unbroken F (s.publish push request commit.id p) := by
  have hintact := intact_at_advance hF hk hb hp
  obtain ⟨hhead, rfl, -⟩ := FilesystemProvider.advanceHead_spec hp
  rw [readHead_headOf hs.head] at hhead
  cases hhead
  have hparents : ∀ parent, HasParent F commit.id parent → parent ∈ s.versions := by
    rintro parent ⟨other, ho, hid, hparent⟩
    obtain rfl := genuine_ext hF ho hk.2.1 hid
    rcases hb.parent_cases hparent with hlocal | hremote
    · exact hl.localHead parent hlocal
    · exact hk.1.remoteHead parent hremote
  refine ⟨?_, ?_, ?_, ?_, ?_⟩
  · intro id hid
    obtain rfl : commit.id = id := Option.some.inj hid
    exact hintact
  · intro id found hr _ parent hparent
    by_cases he : s.versions.head? = some id
    · exact hc id found he hr parent hparent
    · exact h.parents id found hr (fun hends => he hends.2) parent hparent
  · intro newer id before hv parent hparent
    change commit.id :: s.versions = newer ++ id :: before at hv
    cases newer with
    | nil =>
      simp only [List.nil_append, List.cons.injEq] at hv
      rw [← hv.2]
      exact hparents parent (hv.1 ▸ hparent)
    | cons first newer =>
      simp only [List.cons_append, List.cons.injEq] at hv
      exact h.ordered newer id before hv.2 parent hparent
  · intro head hh id hid
    obtain rfl : commit.id = head := Option.some.inj hh
    change id ∈ commit.id :: s.versions at hid
    rcases List.mem_cons.mp hid with rfl | hid
    · exact .refl
    · obtain ⟨last, before, hv⟩ := List.exists_cons_of_ne_nil (List.ne_nil_of_mem hid)
      have hlast : s.versions.head? = some last := by rw [hv]; rfl
      have hstep : HasParent F commit.id last := ⟨commit, hk.2.1, rfl, hb.fromHead_mem hlast⟩
      exact .head hstep (h.descend last hlast id hid)
  · exact fun client id hid => List.mem_cons_of_mem _ (h.sidecars client id hid)

/-! Passes. -/

/-- A commit that a pass leaves is read as before, and its manifest too. -/
theorem Pass.Leaves.intact {pass : Pass Hash} {history : List (Commit Hash)} {plan : FilesystemProvider.Plan Hash}
    (hfor : FilesystemProvider.PlanFor F pass.rule pass.roots s.provider history plan) {id : Hash}
    (h : pass.Leaves F s history id) (hi : s.provider.Intact F id) :
    (FilesystemProvider.swept F pass.io pass.now pass.grace plan s.provider).Intact F id := by
  obtain ⟨commit, manifest, hr, hm⟩ := hi
  obtain ⟨bytes, hb, hd⟩ := FilesystemProvider.readManifest_ok_iff.mp hm
  refine ⟨commit, manifest, ?_, FilesystemProvider.readManifest_ok_iff.mpr ⟨bytes, ?_, hd⟩⟩
  · rw [← hr]
    refine FilesystemProvider.readCommit_congr
      (FilesystemProvider.get?_sweep_commits pass.now pass.grace plan _ fun file hf => ?_)
    exact h.1.imp (hfor.commits id).mp fun hall => hall file hf
  · rw [← hb]
    refine FilesystemProvider.get_congr
      (FilesystemProvider.get?_sweep_blobs pass.now pass.grace plan _ fun file hf => ?_)
    exact (h.2 commit hr).imp (hfor.blobs _) fun hall => hall file hf

theorem head_visible (hs : Settled F s) {history : List (Commit Hash)}
    (hv : s.provider.visibleCommits F {} = .ok history) {id : Hash}
    (hid : s.versions.head? = some id) :
    ∃ commit older, history = commit :: older ∧ commit.id = id ∧
      (s.EndsAt id → older = []) := by
  obtain ⟨floor, head, hf, hh, hw⟩ := FilesystemProvider.visibleCommits_ok_iff.mp hv
  rw [readHead_headOf hs.head, hid] at hh
  cases hh
  have hc := FilesystemProvider.firstParents_ok_iff.mp hw
  cases hc with
  | stop hr _ => exact ⟨_, [], rfl, FilesystemProvider.readCommit_id _ _ hr, fun _ => rfl⟩
  | cons hr hne _ =>
    refine ⟨_, _, rfl, FilesystemProvider.readCommit_id _ _ hr, fun hends => ?_⟩
    rw [FilesystemProvider.readHistoryFloor, hends.1] at hf
    cases hf
    simp at hne

omit [DecidableEq Hash] in
theorem retainedPrefix_cons (rule : RetentionRule) (commit : Commit Hash)
    (older : List (Commit Hash)) :
    ∃ kept, FilesystemProvider.retainedPrefix rule (commit :: older) = commit :: kept ∧
      (older = [] → kept = []) := by
  have hpos := FilesystemProvider.retainedPrefixLen_pos rule commit.timestamp
    (older.map Commit.timestamp)
  obtain ⟨n, hn⟩ := Nat.exists_eq_succ_of_ne_zero hpos.ne'
  refine ⟨older.take n, ?_, ?_⟩
  · rw [FilesystemProvider.retainedPrefix, List.map_cons, hn, List.take_succ_cons]
  · rintro rfl
    exact List.take_nil

/-- Where no walk goes on from `HEAD`, every rule puts the floor there again. -/
theorem floorOf_endsAt (hs : Settled F s) {history : List (Commit Hash)}
    (hv : s.provider.visibleCommits F {} = .ok history) {id : Hash} (h : s.EndsAt id)
    (rule : RetentionRule) : FilesystemProvider.floorOf rule history = some id := by
  obtain ⟨commit, older, rfl, rfl, hnone⟩ := head_visible hs hv h.2
  obtain ⟨kept, hkept, hnil⟩ := retainedPrefix_cons rule commit older
  rw [FilesystemProvider.floorOf, hkept, hnil (hnone h)]
  rfl

theorem head_left (hs : Settled F s) (pass : Pass Hash) {history : List (Commit Hash)}
    (hv : s.provider.visibleCommits F {} = .ok history) {id : Hash}
    (hid : s.versions.head? = some id) : pass.Leaves F s history id := by
  obtain ⟨commit, older, rfl, rfl, -⟩ := head_visible hs hv hid
  obtain ⟨kept, hkept, -⟩ := retainedPrefix_cons pass.rule commit older
  have hk : FilesystemProvider.KeepsCommit F pass.rule pass.roots s.provider (commit :: older)
      commit.id := FilesystemProvider.retained_kept (by rw [hkept]; exact List.mem_cons_self)
  refine ⟨Or.inl hk, fun found hr => Or.inl ?_⟩
  rw [← FilesystemProvider.readCommit_id _ _ hr] at hk hr
  exact .samples hk hr

variable [DecidableEq Client]

theorem Unbroken.prune (hF : F.Lawful) (hs : Settled F s) (h : Unbroken F s) {pass : Pass Hash}
    (hok : pass.Succeeds F s) (hspare : pass.SparesParents F s) : Unbroken F (s.prune F pass) := by
  obtain ⟨hs', -⟩ := hs.prune pass
  rcases prune_cases F s pass with heq | ⟨plan, history, hfor, heq, hresult⟩
  · rw [heq]
    exact h
  · rw [heq] at hs' ⊢
    obtain ⟨report, hreport⟩ := hok
    rw [hresult] at hreport
    obtain ⟨last, hlast, hplan⟩ := hfor.last
    have hfloor := (FilesystemProvider.swept_head_floor F pass.io pass.now pass.grace plan
      s.provider).2
    have hends : ∀ id, FilesystemProvider.floorOf pass.rule history = some id →
        plan.floor = id := by
      intro id hid
      rw [FilesystemProvider.floorOf_some hlast, ← hplan] at hid
      exact Option.some.inj hid
    refine ⟨fun id hid => (head_left hs pass hfor.visible hid).intact hfor (h.head id hid), ?_,
      h.ordered, h.descend, h.sidecars⟩
    intro id commit hr hne parent hp
    -- the commit was stored before, as the one it is now, and was left for a reason
    obtain ⟨_, _, hget, _⟩ := FilesystemProvider.readCommit_ok_iff.mp hr
    obtain ⟨file, hfile, -⟩ := Cas.get_ok_iff.mp hget
    obtain ⟨hmem, hleft⟩ := FilesystemProvider.left_of_swept hreport (mem_of_get? hfile)
    obtain ⟨found, hfound, hg, hid⟩ := hs.sound.readCommit hF (List.mem_map_of_mem hmem)
    obtain ⟨hg', hid'⟩ := hs'.sound.genuine hF hr
    obtain rfl := genuine_ext hF hg hg' (hid.trans hid'.symm)
    have hnot : ¬ s.EndsAt id := fun he =>
      hne ⟨hends id (floorOf_endsAt hs hfor.visible he pass.rule) ▸ hfloor, he.2⟩
    have hi := h.parents id found hfound hnot parent hp
    exact (hspare history hfor.visible id found file hfound hmem
      (hleft.imp (hfor.commits id).mpr fun hx => hx)
      (fun hx => hne ⟨hends id hx.1 ▸ hfloor, hx.2⟩) parent hp hi).intact hfor hi

/-! Walking down. -/

omit [DecidableEq Client] in
/-- The walk ends, since parents are published before their children. -/
theorem Unbroken.walk (hF : F.Lawful) (hs : Settled F s) (h : Unbroken F s) {floor : Option Hash}
    (hf : s.provider.readHistoryFloor {} = .ok floor) {newer before : List Hash} {id : Hash}
    (hv : s.versions = newer ++ id :: before) (hi : s.provider.Intact F id) :
    ∃ commits, s.provider.History F floor (some id) commits ∧
      ∀ commit ∈ commits, s.provider.Intact F commit.id := by
  induction hn : before.length using Nat.strong_induction_on generalizing newer before id with
  | _ n ih =>
    subst hn
    have hown := hi
    obtain ⟨commit, manifest, hr, -⟩ := hi
    rw [← FilesystemProvider.readCommit_id _ _ hr] at hown
    by_cases hstop : some id = floor
    · exact ⟨[commit], .stop hr (by simpa using hstop), by simpa using hown⟩
    · have hnot : ¬ s.EndsAt id := by
        rintro ⟨hfloor, -⟩
        rw [FilesystemProvider.readHistoryFloor, hfloor] at hf
        exact hstop (Except.ok.inj hf)
      cases hp : commit.parents.head? with
      | none =>
        refine ⟨[commit], .cons hr (by simpa using hstop) ?_, by simpa using hown⟩
        rw [hp]
        exact .nil
      | some parent =>
        have hmem := List.mem_of_mem_head? hp
        have hbefore := h.ordered newer id before hv parent ((hasParent_iff hF hs hr).mpr hmem)
        obtain ⟨newer', before', hsplit⟩ := List.append_of_mem hbefore
        have hv' : s.versions = (newer ++ id :: newer') ++ parent :: before' := by
          rw [hv, hsplit, List.append_assoc, List.cons_append]
        have hshorter : before'.length < before.length := by
          rw [hsplit, List.length_append, List.length_cons]
          omega
        obtain ⟨commits, hc, hall⟩ :=
          ih before'.length hshorter hv' (h.parents id commit hr hnot parent hmem) rfl
        refine ⟨commit :: commits, .cons hr (by simpa using hstop) ?_, ?_⟩
        · rw [hp]
          exact hc
        · exact List.forall_mem_cons.mpr ⟨hown, hall⟩

omit [DecidableEq Client] in
theorem Unbroken.visible (hF : F.Lawful) (hs : Settled F s) (h : Unbroken F s) :
    ∃ history, s.provider.visibleCommits F {} = .ok history ∧
      ∀ commit ∈ history, s.provider.Intact F commit.id := by
  obtain ⟨floor, hf⟩ : ∃ floor, s.provider.readHistoryFloor {} = .ok floor := by
    rcases hs.floor with hm | ⟨id, hn⟩
    · exact ⟨none, by rw [FilesystemProvider.readHistoryFloor, hm]; rfl⟩
    · exact ⟨some id, by rw [FilesystemProvider.readHistoryFloor, hn]; rfl⟩
  have hhead := readHead_headOf hs.head
  cases hv : s.versions with
  | nil =>
    rw [hv] at hhead
    exact ⟨[], FilesystemProvider.visibleCommits_ok_iff.mpr ⟨floor, none, hf, hhead,
      FilesystemProvider.firstParents_ok_iff.mpr .nil⟩, fun _ hc => absurd hc List.not_mem_nil⟩
  | cons id before =>
    obtain ⟨commits, hc, hall⟩ := h.walk hF hs hf (show s.versions = [] ++ id :: before from hv)
      (h.head id (by rw [hv]; rfl))
    rw [hv] at hhead
    exact ⟨commits, FilesystemProvider.visibleCommits_ok_iff.mpr ⟨floor, some id, hf, hhead,
      FilesystemProvider.firstParents_ok_iff.mpr hc⟩, hall⟩

omit [DecidableEq Client] in
theorem Unbroken.usable (hF : F.Lawful) (hs : Settled F s) (h : Unbroken F s) :
    RetentionUsable F s := by
  intro rule roots now grace hroots
  obtain ⟨history, hv, hall⟩ := h.visible hF hs
  refine FilesystemProvider.prune_ok_of_readable now grace hv fun id hk => ?_
  change s.provider.Intact F id
  induction hk with
  | root hmem =>
    rcases List.mem_append.mp hmem with hretained | hroot
    · obtain ⟨commit, hc, rfl⟩ := List.mem_map.mp hretained
      exact hall commit (List.mem_of_mem_take hc)
    · exact hroots _ hroot
  | @step child parent commit _ hr hp _ =>
    simp only [FilesystemProvider.parentsToFloor] at hp
    split at hp
    · cases hp
    · rename_i hne
      exact h.parents child commit hr
        (fun he => hne (floorOf_endsAt hs hv he rule).symm) parent hp

theorem Unbroken.save (h : Unbroken F s) (client : Client) {sidecar : Sidecar Hash}
    (hside : ∀ id, sidecar.localHead = some id → id ∈ s.versions) :
    Unbroken F (s.save client sidecar) := by
  refine h.congr rfl rfl (.refl _) h.parents fun other id hid => ?_
  simp only [Shared.save] at hid
  by_cases ho : other = client
  · subst ho
    rw [Function.update_self] at hid
    exact hside id hid
  · rw [Function.update_of_ne ho] at hid
    exact h.sidecars other id hid

omit [DecidableEq Client] in
theorem Unbroken.putBlob (hF : F.Lawful) (hs : Settled F s) (h : Unbroken F s) {clock : Clock}
    {hash : Hash} {bytes : Bytes} {p : FilesystemProvider Bytes Hash}
    (hp : s.provider.putBlob F clock.val hash bytes = .ok p) :
    Unbroken F { s with provider := p } := by
  obtain ⟨-, hkeeps, -, hfloor, -⟩ := FilesystemProvider.putBlob_spec hF hs.sound hp
  obtain ⟨blobs, -, rfl⟩ := map_ok_iff.mp hp
  exact h.congr rfl hfloor hkeeps h.parents h.sidecars

/-- What a call does to the stored parents, and what the push then knows. -/
theorem unbroken_moves (hF : F.Lawful) {push : Nat} {request : PushRequest Client Bytes Hash}
    {phase phase' : Phase Bytes Hash}
    (hm : Moves F R (sparingParents F) push request phase s phase' s') (hs : Settled F s)
    (hg : Grows F s s') (hk : KnowsPhase F push request phase s) (h : Unbroken F s)
    (hl : KnowsBase phase s) : Unbroken F s' ∧ KnowsBase phase' s' := by
  cases hm with
  | stay => exact ⟨h, hl⟩
  | seeHead => exact ⟨h, trivial⟩
  | begin => exact ⟨h, h.sidecars request.client, h.sidecars request.client⟩
  | load w => exact ⟨h, hl.localHead, h.sidecars request.client⟩
  | save _ heq => exact ⟨h.save _ fun id hid => hl.sidecar id (heq ▸ hid), KnowsLocal.grows hg hl⟩
  | putBlob hp =>
    have hl' := KnowsLocal.grows hg hl
    exact ⟨h.putBlob hF hs hp, hl'.localHead, hl'.sidecar⟩
  | getBlob => exact ⟨h, hl.localHead, hl.sidecar⟩
  | getCommit => exact ⟨h, hl.localHead, hl.sidecar⟩
  | putCommit hb hmay hp =>
    exact ⟨h.putCommit hF hs hmay hk hl hb hp, KnowsLocal.grows hg hl⟩
  | advance hb hmay hp => exact ⟨h.publish hF hs hmay hk hl hb hp, trivial⟩
  | record _ heq =>
    refine ⟨h.save _ fun id hid => ?_, trivial⟩
    rw [heq] at hid
    cases hid
    exact List.mem_map_of_mem hk.2.2

theorem unbroken_extension (hF : F.Lawful) :
    Extension (phases F R (sparingParents F)) (Grows F) (Settled F)
      (fun push q => KnowsPhase F push q.1 q.2) (@Unbroken Client Bytes Hash _ F)
      (fun _ q => KnowsBase q.2) where
  stable _ _ _ _ hg _ _ _ _ hk := hk.grows hg
  env s s' henv _ hs _ h := by
    rcases henv with ⟨pass, ⟨hok, hspare⟩, rfl⟩ | ⟨client, sidecar, hside, rfl⟩
    · exact h.prune hF hs hok hspare
    · exact h.save client hside
  begins push s q hq _ _ := by
    rw [show q.2 = .started from hq]
    trivial
  acts push q s q' s' ha hg hs _ hk _ h hl := unbroken_moves hF ha.2 hs hg hk h hl
  ends push q s s' he _ _ _ _ h _ := by
    obtain ⟨outcome, -, rfl⟩ := he
    exact h.congr rfl rfl (.refl _) h.parents h.sidecars

/-- As long as no pass takes a parent away from a commit that it leaves, passes stay possible
throughout all pushes and passes. -/
theorem retention_usable (hF : F.Lawful) (h : Run F R (sparingParents F) s) :
    RetentionUsable F s := by
  have ho := (settled_outline hF R (sparingParents F : Limits Client Bytes Hash)).extend
    (unbroken_extension hF)
  have hstart : Unbroken F (.start : Shared Client Bytes Hash) := by
    refine ⟨?_, ?_, ?_, ?_, ?_⟩
    · exact fun id hid => by cases hid
    · exact fun id commit hr => absurd (FilesystemProvider.readCommit_stored _ _ hr) List.not_mem_nil
    · exact fun newer id before hv => by cases newer <;> cases hv
    · exact fun head hh => by cases hh
    · exact fun client id hid => by cases hid
  obtain ⟨hs, hu⟩ := Run.invariant ho ⟨settled_start, hstart⟩ h
  exact hu.usable hF hs

omit [DecidableEq Client] in
/-- A pass that keeps every stored commit spares parents. -/
theorem sparesParents_of_all_kept {pass : Pass Hash} {plan : FilesystemProvider.Plan Hash}
    (hplan : s.provider.planRetention F pass.io pass.rule pass.roots = .ok (some plan))
    (hall : ∀ e ∈ s.provider.commits, e.1 ∈ plan.graph.map Commit.id) :
    pass.SparesParents F s := by
  obtain ⟨history', hfor⟩ := FilesystemProvider.planFor_of_ok hplan
  intro history hv _ _ _ _ _ _ _ parent _ ⟨commit, _, hr, _⟩
  obtain rfl : history' = history := Except.ok.inj (hfor.visible.symm.trans hv)
  obtain ⟨e, he, rfl⟩ := List.mem_map.mp (FilesystemProvider.readCommit_stored _ _ hr)
  have hk := (hfor.commits e.1).mpr (hall e he)
  refine ⟨Or.inl hk, fun found hfound => Or.inl ?_⟩
  rw [← FilesystemProvider.readCommit_id _ _ hfound] at hk hfound
  exact .samples hk hfound

end Steps

/-! Runs. -/

def intact (s : Shared Nat Term Term) (id : Term) : Bool :=
  match s.provider.readCommit symbolic {} id with
  | .ok commit => (s.provider.readManifest symbolic {} commit).isOk
  | .error _ => false

def headComplete (s : Shared Nat Term Term) : Bool :=
  match s.versions.head? with
  | none => true
  | some id =>
    match s.provider.readCommit symbolic {} id with
    | .ok commit => commit.parents.all (intact s)
    | .error _ => true

/-- Calls that store or advance while a parent of `HEAD` is missing fail the test. -/
def onCompleteHead (s : Shared Nat Term Term) : Call Term Term → Bool
  | .putCommit _ => headComplete s
  | .advanceHead _ _ => headComplete s
  | _ => true

/-- Whether the pass ends well and keeps every stored commit. -/
def keepsAll (s : Shared Nat Term Term) (pass : Pass Term) : Bool :=
  (s.provider.pruneHistoryWithGrace symbolic pass.io pass.rule pass.roots pass.now
    pass.grace).result.isOk &&
  match s.provider.planRetention symbolic pass.io pass.rule pass.roots with
  | .ok (some plan) => s.provider.commits.all fun e => decide (e.1 ∈ plan.graph.map Commit.id)
  | _ => false

theorem intact_iff {s : Shared Nat Term Term} {id : Term} :
    intact s id = true ↔ s.provider.Intact symbolic id := by
  unfold intact
  constructor
  · intro h
    split at h
    · rename_i commit hr
      obtain ⟨manifest, hm⟩ := exists_of_isOk h
      exact ⟨commit, manifest, hr, hm⟩
    · cases h
  · rintro ⟨commit, manifest, hr, hm⟩
    simp only [hr, hm]
    rfl

theorem headComplete_of_true {s : Shared Nat Term Term} (h : headComplete s = true) :
    HeadComplete symbolic s := by
  intro id commit hid hr parent hp
  simp only [headComplete, hid, hr, List.all_eq_true] at h
  exact intact_iff.mp (h parent hp)

theorem sparingParents_of_onCompleteHead (s : Shared Nat Term Term) (c : Call Term Term)
    (h : onCompleteHead s c = true) : (sparingParents symbolic).Allow s c := by
  cases c with
  | putCommit commit => exact headComplete_of_true h
  | advanceHead fromHead toHead => exact headComplete_of_true h
  | _ => trivial

theorem sparingParents_of_keepsAll {s : Shared Nat Term Term} {pass : Pass Term}
    (h : keepsAll s pass = true) : (sparingParents symbolic).pass s pass := by
  simp only [keepsAll, Bool.and_eq_true] at h
  refine ⟨exists_of_isOk h.1, ?_⟩
  cases hplan : s.provider.planRetention symbolic pass.io pass.rule pass.roots with
  | error e =>
    rw [hplan] at h
    exact absurd h.2 (by simp)
  | ok plan =>
    rw [hplan] at h
    cases plan with
    | none => exact absurd h.2 (by simp)
    | some plan =>
      refine sparesParents_of_all_kept hplan fun e he => ?_
      have hall := List.all_eq_true.mp h.2 e he
      simpa using hall

/-- After a merge, a pass that keeps two versions and with them the merged one. -/
theorem retention_usable_merged : RetentionUsable symbolic (twoClients.prune symbolic
    ⟨{}, .latest 2, ⟨[], []⟩, 4000, retentionGcGraceSecs⟩) := by
  have hfirst : RunOf symbolic nativeReaders (sparingParents symbolic) 1 sharedOnce :=
    (RunOf.start.pushWithin sparingParents_of_onCompleteHead 1 _ (by decide +kernel)).restore 1 _
      fun _ hid => List.mem_of_mem_head? hid
  have hsecond := hfirst.pushWithin sparingParents_of_onCompleteHead 2
    (pushOf 0 (song "C" "Dawn")) (by decide +kernel)
  have hmerged : RunOf symbolic nativeReaders (sparingParents symbolic) 3 twoClients :=
    hsecond.pushWithin sparingParents_of_onCompleteHead 3 _ (by decide +kernel)
  exact retention_usable symbolic_lawful
    (hmerged.prune _ (sparingParents_of_keepsAll (by decide +kernel))).run

/-! A protected version that becomes the floor. -/

/-- Three versions of one client, each on top of the one before. -/
def threeVersions : Shared Nat Term Term :=
  (oldVersion.pushAlone symbolic nativeReaders 2 1 (pushOf 0 (song "C" "Dawn"))).pushAlone
    symbolic nativeReaders 3 2 (pushOf 0 (song "C" "Dusk"))

/-- The one in the middle. -/
def middleVersion : RetentionRoots Term := ⟨(threeVersions.versions.drop 1).take 1, []⟩

/-- A pass that protects it and keeps two versions, so that it becomes the floor. -/
def protectedOnce : Shared Nat Term Term :=
  threeVersions.prune symbolic ⟨{}, .latest 2, middleVersion, 4000, retentionGcGraceSecs⟩

theorem protectedOnce_run :
    RunOf symbolic nativeReaders (successfulPasses symbolic) 3 protectedOnce := by
  have hmay : ∀ (s : Shared Nat Term Term) c, (successfulPasses symbolic).Allow s c := fun _ c => by
    cases c <;> trivial
  have hthree : RunOf symbolic nativeReaders (successfulPasses symbolic) 3 threeVersions :=
    ((RunOf.start.push hmay 1 _).push hmay 2 _).push hmay 3 _
  exact hthree.prune _ (exists_of_isOk (by decide +kernel))

/-- Protecting it again, while only the newest version is kept, needs its collected parent. -/
theorem retention_blocked : ∃ s : Shared Nat Term Term,
    Run symbolic nativeReaders (successfulPasses symbolic) s ∧ ¬ RetentionUsable symbolic s := by
  refine ⟨protectedOnce, protectedOnce_run.run, fun h => ?_⟩
  have hintact : ∀ id ∈ middleVersion.commits, protectedOnce.provider.Intact symbolic id := by
    have hall : middleVersion.commits.all (intact protectedOnce) = true := by decide +kernel
    exact fun id hid => intact_iff.mp (List.all_eq_true.mp hall id hid)
  obtain ⟨report, hok⟩ := h (.latest 1) middleVersion 8000 retentionGcGraceSecs hintact
  have hfails : (protectedOnce.provider.pruneHistoryWithGrace symbolic {} (.latest 1)
      middleVersion 8000 retentionGcGraceSecs).result.isOk = false := by
    decide +kernel
  rw [hok] at hfails
  cases hfails

end AuruPm
