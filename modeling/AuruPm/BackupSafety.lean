import AuruPm.BackupStatus

/-!
# When the status of a project can be believed

What one step can do to the two heads, the two modification times and the history, and from it
when a step keeps the status truthful. A run keeps it truthful throughout just when all its steps
are careful.
-/

namespace AuruPm.BackupStatus

set_option autoImplicit false

open SortedAssoc Server

variable {Hash : Type}

/-- What the status and its promise are about. -/
structure Facts (Hash : Type) where
  now : Nat
  project : Nat
  marker : Option Nat
  localHead : Option Hash
  verifiedHead : Option Hash
  made : List (Made Hash)
  verified : List Hash

def Computer.facts (c : Computer Hash) : Facts Hash :=
  ⟨c.now, c.project, c.marker, c.sidecar.localHead, c.sidecar.verifiedHead, c.made, c.verified⟩

/-- The two heads agree, and no save is newer than the sidecar. -/
structure Facts.Safe (f : Facts Hash) (head : Hash) : Prop where
  localHead : f.localHead = some head
  verifiedHead : f.verifiedHead = some head
  project : ∀ marker ∈ f.marker, f.project ≤ marker

theorem readFromDisk_downloaded_iff [DecidableEq Hash] {sidecar : ProjectSidecar Hash} {project : Nat}
    {backup : Option Nat} :
    ProjectStatus.readFromDisk (.ok sidecar) (some project) backup = .downloaded ↔
      sidecar.localHead ≠ none ∧ sidecar.verifiedHead = sidecar.localHead ∧
        ∀ marker ∈ backup, project ≤ marker := by
  unfold ProjectStatus.readFromDisk
  by_cases hlocal : sidecar.localHead = none
  · simp [hlocal]
  by_cases hverified : sidecar.verifiedHead = sidecar.localHead
  · cases backup with
    | none => simp [hlocal, hverified]
    | some marker =>
      by_cases hlt : project > marker
      · simp [hlocal, hverified, hlt, Nat.not_le_of_lt hlt]
      · simp [hlocal, hverified, hlt, Nat.le_of_not_lt hlt]
  · simp [hlocal, hverified]

theorem status_downloaded_iff [DecidableEq Hash] {c : Computer Hash} :
    c.status = .downloaded ↔ ∃ head, c.facts.Safe head := by
  rw [Computer.status, readFromDisk_downloaded_iff]
  constructor
  · intro ⟨hlocal, hverified, hproject⟩
    obtain ⟨head, hhead⟩ := Option.ne_none_iff_exists'.mp hlocal
    exact ⟨head, hhead, hverified.trans hhead, hproject⟩
  · intro ⟨head, hlocal, hverified, hproject⟩
    refine ⟨?_, hverified.trans hlocal.symm, hproject⟩
    rw [show c.sidecar.localHead = some head from hlocal]
    exact Option.some_ne_none head

/-- The invariant of every run, careful or not. -/
structure Facts.Sound (f : Facts Hash) : Prop where
  project_le : f.project ≤ f.now
  marker_le : ∀ marker ∈ f.marker, marker ≤ f.now
  distinct : (f.made.map Made.commit).Nodup
  backedUp : ∀ head ∈ f.verifiedHead, ∃ m ∈ f.made, m.commit = head ∧ m.unavailable = [] ∧
    head ∈ f.verified ∧ ∃ marker, f.marker = some marker ∧ m.shown ≤ marker

/-- What holds while a backup is in this phase. -/
def PhaseSound (f : Facts Hash) : Phase Hash → Prop
  | .reading _ => True
  | .snapshotting _ _ => True
  | .comparing _ _ shown => shown ≤ f.project
  | .opening prepared => prepared.shown ≤ f.project
  | .locating prepared => prepared.shown ≤ f.project
  | .pushing prepared => prepared.shown ≤ f.project
  | .conflicted prepared => prepared.shown ≤ f.project
  | .committed prepared commit unavailable =>
    prepared.shown ≤ f.project ∧ f.localHead = some commit ∧
      ⟨commit, prepared.shown, unavailable⟩ ∈ f.made
  | .rereading prepared commit verification => Reviewed prepared commit verification
  | .recording prepared commit verification => Reviewed prepared commit verification
where
  Reviewed (prepared : PreparedBackup) (commit : Hash) (verification : BackupVerification) : Prop :=
    prepared.shown ≤ f.project ∧ f.localHead = some commit ∧
      ∃ unavailable, ⟨commit, prepared.shown, unavailable⟩ ∈ f.made ∧
        (verification = .verified → unavailable = [] ∧ commit ∈ f.verified)

/-- What one event can do. -/
inductive Effect (c : Computer Hash) (e : Event Hash) (f : Facts Hash) : Prop
  | kept (time : Nat) (hw : c.rewrites e = false) (hr : c.records e = none)
      (hf : f = { c.facts with now := c.now + time })
  | saved (later : Nat) (hw : c.rewrites e = false) (hr : c.records e = none)
      (hf : f = { c.facts with now := c.now + later + 1, project := c.now + later + 1 })
  | rewrote (hw : c.rewrites e = true) (hr : c.records e = none)
      (hf : f = { c.facts with marker := some c.now })
  | committed (m : Made Hash) (hw : c.rewrites e = false) (hr : c.records e = none)
      (hnew : m.commit ∉ c.made.map Made.commit)
      (hf : f = { c.facts with
        marker := some c.now
        localHead := some m.commit
        made := m :: c.made })
  | verified (commit : Hash) (hw : c.rewrites e = false) (hr : c.records e = none)
      (hf : f = { c.facts with verified := commit :: c.verified })
  | recorded (prepared : PreparedBackup) (commit : Hash) (hw : c.rewrites e = false)
      (hr : c.records e = some prepared) (hlocal : c.sidecar.localHead = some commit)
      (hm : ⟨commit, prepared.shown, []⟩ ∈ c.made) (hv : commit ∈ c.verified)
      (hp : prepared.shown ≤ c.project)
      (hf : f = { c.facts with marker := some c.now, verifiedHead := some commit })

/-- The invariant, with the phase of the backup that runs. -/
structure Sound (c : Computer Hash) : Prop where
  facts : c.facts.Sound
  phase : ∀ job phase, c.backup = some (job, phase) → PhaseSound c.facts phase

section Effects
variable {c c' : Computer Hash}

@[simp] theorem facts_goesTo (job : Job) (phase : Phase Hash) :
    (c.goesTo job phase).facts = c.facts :=
  rfl

@[simp] theorem backup_goesTo (job : Job) (phase : Phase Hash) :
    (c.goesTo job phase).backup = some (job, phase) :=
  rfl

/-- Rewriting the sidecar under the same heads. -/
theorem facts_modifySidecar {f : ProjectSidecar Hash → ProjectSidecar Hash}
    (hlocal : (f c.sidecar).localHead = c.sidecar.localHead)
    (hverified : (f c.sidecar).verifiedHead = c.sidecar.verifiedHead) :
    (c.modifySidecar f).facts = { c.facts with marker := some c.now } := by
  simp [Computer.facts, Computer.modifySidecar, hlocal, hverified]

theorem facts_persistedProjectHandle (provider handle : String) :
    (c.persistedProjectHandle provider handle).facts =
      if c.lacksHandle provider then { c.facts with marker := some c.now } else c.facts := by
  unfold Computer.persistedProjectHandle
  by_cases h : c.lacksHandle provider = true
  · rw [if_pos h, if_pos h]
    exact facts_modifySidecar rfl rfl
  · rw [if_neg h, if_neg h]

theorem facts_saveProjectMetadata (metadata : ProjectMetadata) (location : Option ProjectLocation)
    (restores : Bool) :
    (c.saveProjectMetadata metadata location restores).facts =
      if c.marker.isNone || !restores then { c.facts with marker := some c.now } else c.facts := by
  unfold Computer.saveProjectMetadata
  cases hmarker : c.marker with
  | none => exact facts_modifySidecar rfl rfl
  | some marker =>
    cases restores with
    | false => exact facts_modifySidecar rfl rfl
    | true => simp [Computer.facts, Computer.modifySidecar, hmarker]

theorem Effect.unchanged {e : Event Hash} (hw : c.rewrites e = false) (hr : c.records e = none) :
    Effect c e c.facts :=
  .kept 0 hw hr rfl

/-- An event that may rewrite the sidecar. -/
theorem effect_rewrites {c₁ : Computer Hash} {e : Event Hash} {w : Bool} (hw : c.rewrites e = w)
    (hr : c.records e = none)
    (hf : c₁.facts = if w then { c.facts with marker := some c.now } else c.facts) :
    Effect c e c₁.facts := by
  cases w with
  | false =>
    rw [show c₁.facts = c.facts from hf]
    exact .unchanged hw hr
  | true => exact .rewrote hw hr hf

theorem verification_eq_verified {job : Job} {unavailable : List String} {copy : Bool}
    (h : verification job unavailable copy = .verified) : unavailable = [] := by
  by_contra hne
  rw [verification, if_pos hne] at h
  cases h

theorem loadHistoryAfterBackup_verified {history : Bool} {v : BackupVerification}
    (h : loadHistoryAfterBackup history v = some .verified) : v = .verified := by
  cases history with
  | true => exact Option.some.inj h
  | false => cases v <;> cases h

/-- A backup that goes on. -/
theorem effect_goesTo {c₁ : Computer Hash} {e : Event Hash} {job : Job} {phase : Phase Hash}
    (h : some (c₁.goesTo job phase) = some c') (he : Effect c e c₁.facts)
    (hp : PhaseSound c₁.facts phase) :
    Effect c e c'.facts ∧
      ∀ job' phase', c'.backup = some (job', phase') → PhaseSound c'.facts phase' := by
  cases h
  refine ⟨he, fun job' phase' h => ?_⟩
  cases h
  exact hp

/-- A backup that ends. -/
theorem effect_ends {c₁ : Computer Hash} {e : Event Hash}
    (h : some { c₁ with backup := none } = some c') (he : Effect c e c₁.facts) :
    Effect c e c'.facts ∧
      ∀ job' phase', c'.backup = some (job', phase') → PhaseSound c'.facts phase' := by
  cases h
  exact ⟨he, fun job' phase' h => by cases h⟩

theorem backUp_effect [DecidableEq Hash] {job : Job} {phase : Phase Hash} {step : BackupStep Hash}
    (hb : c.backup = some (job, phase)) (hp : PhaseSound c.facts phase)
    (h : c.backUp job phase step = some c') :
    Effect c (.backUp step) c'.facts ∧
      ∀ job' phase', c'.backup = some (job', phase') → PhaseSound c'.facts phase' := by
  fun_cases Computer.backUp c job phase step
  case case1 => exact effect_ends h (.unchanged (by simp [Computer.rewrites, hb]) rfl)
  case case2 => exact effect_goesTo h (.unchanged (by simp [Computer.rewrites, hb]) rfl) trivial
  case case3 =>
    exact effect_goesTo h (.unchanged (by simp [Computer.rewrites, hb]) rfl) (Nat.le_refl _)
  case case4 retries shown readable after =>
    unfold Computer.backUp at h
    rw [if_pos rfl] at h
    exact effect_goesTo h (.unchanged (by simp [Computer.rewrites, hb]) rfl) hp
  case case5 hne =>
    unfold Computer.backUp at h
    rw [if_neg hne] at h
    exact effect_ends h (.unchanged (by simp [Computer.rewrites, hb]) rfl)
  case case6 hne retries =>
    unfold Computer.backUp at h
    rw [if_neg hne] at h
    exact effect_goesTo h (.unchanged (by simp [Computer.rewrites, hb]) rfl) trivial
  case case7 prepared c₁ =>
    have hf : c₁.facts = if !job.isLocal && c.lacksHandle job.provider then
        { c.facts with marker := some c.now } else c.facts := by
      simp only [c₁]
      cases job.isLocal with
      | true => rfl
      | false => exact facts_persistedProjectHandle _ _
    refine effect_goesTo h (effect_rewrites (by simp [Computer.rewrites, hb]) rfl hf) ?_
    show prepared.shown ≤ c₁.facts.project
    rw [hf]
    split <;> exact hp
  case case8 prepared c₁ =>
    have hf : c₁.facts = if prepared.location.isSome then
        { c.facts with marker := some c.now } else c.facts := by
      simp only [c₁]
      cases prepared.location with
      | none => rfl
      | some location => exact facts_modifySidecar rfl rfl
    refine effect_goesTo h (effect_rewrites (by simp [Computer.rewrites, hb]) rfl hf) ?_
    show prepared.shown ≤ c₁.facts.project
    rw [hf]
    split <;> exact hp
  case case9 prepared stash =>
    refine effect_goesTo h ?_ hp
    exact .rewrote (by simp [Computer.rewrites, hb]) rfl (facts_modifySidecar rfl rfl)
  case case10 => exact effect_goesTo h (.unchanged (by simp [Computer.rewrites, hb]) rfl) hp
  case case11 => exact effect_goesTo h (.unchanged (by simp [Computer.rewrites, hb]) rfl) hp
  case case12 hmem =>
    unfold Computer.backUp at h
    rw [if_pos hmem] at h
    cases h
  case case13 prepared commit now unavailable hnew c₁ =>
    unfold Computer.backUp at h
    rw [if_neg hnew] at h
    refine effect_goesTo h ?_ ⟨hp, rfl, List.mem_cons_self⟩
    exact .committed ⟨commit, prepared.shown, unavailable⟩ (by simp [Computer.rewrites, hb]) rfl
      hnew rfl
  case case14 prepared commit unavailable copy checked verified =>
    obtain ⟨hshown, hlocal, hmade⟩ := hp
    by_cases hchecked : checked = .verified
    · simp only [Computer.backUp] at h
      rw [if_pos hchecked] at h
      refine effect_goesTo h (.verified commit (by simp [Computer.rewrites, hb]) rfl rfl) ?_
      exact ⟨hshown, hlocal, unavailable, hmade,
        fun _ => ⟨verification_eq_verified hchecked, List.mem_cons_self⟩⟩
    · simp only [Computer.backUp] at h
      rw [if_neg hchecked] at h
      refine effect_goesTo h (.unchanged (by simp [Computer.rewrites, hb]) rfl) ?_
      exact ⟨hshown, hlocal, unavailable, hmade, fun hv => absurd hv hchecked⟩
  case case15 prepared commit v history v' hv =>
    obtain ⟨hshown, hlocal, unavailable, hmade, hverified⟩ := hp
    simp only [Computer.backUp, hv] at h
    refine effect_goesTo h (.unchanged (by simp [Computer.rewrites, hb]) rfl) ?_
    refine ⟨hshown, hlocal, unavailable, hmade, fun hv' => hverified ?_⟩
    rw [hv'] at hv
    exact loadHistoryAfterBackup_verified hv
  case case16 hv =>
    simp only [Computer.backUp, hv] at h
    exact effect_ends h (.unchanged (by simp [Computer.rewrites, hb]) rfl)
  case case17 prepared commit v c₁ =>
    obtain ⟨hshown, hlocal, unavailable, hmade, hverified⟩ := hp
    by_cases hv : v = .verified
    · subst hv
      obtain ⟨rfl, hmem⟩ := hverified rfl
      refine effect_ends h ?_
      exact .recorded prepared commit (by simp [Computer.rewrites, hb])
        (by simp [Computer.records, hb]) hlocal hmade hmem hshown rfl
    · simp only [Computer.backUp] at h
      rw [if_neg hv] at h
      refine effect_ends h (.unchanged (by simp [Computer.rewrites, hb]) ?_)
      cases v with
      | verified => exact absurd rfl hv
      | _ => simp [Computer.records, hb]
  case case18 =>
    rw [Computer.backUp] at h
    · cases h
    all_goals assumption

/-- Saves and rewrites of the sidecar leave a running backup where it is. -/
theorem PhaseSound.mono {f f' : Facts Hash} {phase : Phase Hash} (h : PhaseSound f phase)
    (hproject : f.project ≤ f'.project) (hlocal : f'.localHead = f.localHead)
    (hmade : f'.made = f.made) (hverified : f'.verified = f.verified) : PhaseSound f' phase := by
  have hreviewed : ∀ {prepared commit v}, PhaseSound.Reviewed f prepared commit v →
      PhaseSound.Reviewed f' prepared commit v := by
    intro prepared commit v ⟨hshown, hhead, unavailable, hm, hv⟩
    rw [PhaseSound.Reviewed, hlocal, hmade, hverified]
    exact ⟨Nat.le_trans hshown hproject, hhead, unavailable, hm, hv⟩
  cases phase with
  | reading => trivial
  | snapshotting => trivial
  | comparing => exact Nat.le_trans h hproject
  | opening => exact Nat.le_trans h hproject
  | locating => exact Nat.le_trans h hproject
  | pushing => exact Nat.le_trans h hproject
  | conflicted => exact Nat.le_trans h hproject
  | committed prepared commit unavailable =>
    obtain ⟨hshown, hhead, hm⟩ := h
    rw [PhaseSound, hlocal, hmade]
    exact ⟨Nat.le_trans hshown hproject, hhead, hm⟩
  | rereading => exact hreviewed h
  | recording => exact hreviewed h

theorem PhaseSound.rewritten {f f' : Facts Hash} {phase : Phase Hash} {w : Bool} {now : Nat}
    (h : PhaseSound f phase) (hf : f' = if w then { f with marker := some now } else f) :
    PhaseSound f' phase := by
  cases w with
  | false =>
    rw [show f' = f from hf]
    exact h
  | true =>
    rw [show f' = { f with marker := some now } from hf]
    exact h.mono (Nat.le_refl _) rfl rfl rfl

theorem step_effect [DecidableEq Hash] {e : Event Hash} (hs : Sound c) (h : c.step e = some c') :
    Effect c e c'.facts ∧
      ∀ job phase, c'.backup = some (job, phase) → PhaseSound c'.facts phase := by
  cases e with
  | wait time =>
    cases h
    refine ⟨.kept time rfl rfl rfl, fun job phase hb => ?_⟩
    exact (hs.phase job phase hb).mono (Nat.le_refl _) rfl rfl rfl
  | save later =>
    cases h
    refine ⟨.saved later rfl rfl rfl, fun job phase hb => ?_⟩
    refine (hs.phase job phase hb).mono ?_ rfl rfl rfl
    have hle : c.project ≤ c.now := hs.facts.project_le
    show c.project ≤ c.now + later + 1
    omega
  | saveMetadata metadata location restores =>
    cases h
    have hf := facts_saveProjectMetadata (c := c) metadata location restores
    refine ⟨effect_rewrites rfl rfl hf, fun job phase hb => ?_⟩
    refine (hs.phase job phase ?_).rewritten hf
    rw [← hb]
    unfold Computer.saveProjectMetadata
    cases c.marker with
    | none => rfl
    | some marker => cases restores <;> rfl
  | lookUpHandle provider handle =>
    cases h
    have hf := facts_persistedProjectHandle (c := c) provider handle
    refine ⟨effect_rewrites rfl rfl hf, fun job phase hb => ?_⟩
    refine (hs.phase job phase ?_).rewritten hf
    rw [← hb]
    unfold Computer.persistedProjectHandle
    split <;> rfl
  | beginBackup job =>
    rcases hb : c.backup with _ | running
    · simp only [Computer.step, hb] at h
      exact effect_goesTo h (.unchanged rfl rfl) trivial
    · simp only [Computer.step, hb] at h
      cases h
  | backUp step =>
    rcases hb : c.backup with _ | ⟨job, phase⟩
    · simp only [Computer.step, hb] at h
      cases h
    · simp only [Computer.step, hb] at h
      exact backUp_effect hb (hs.phase job phase hb) h

end Effects

/-! One step. -/

section Steps
variable {c c' : Computer Hash} {e : Event Hash} {f : Facts Hash}

theorem Effect.sound (hs : c.facts.Sound) (he : Effect c e f) : f.Sound := by
  obtain ⟨hproject, hmarker, hdistinct, hbacked⟩ := hs
  -- a sidecar that exists is written again at the latest time
  have hlater : ∀ head ∈ c.facts.verifiedHead, ∃ m ∈ c.facts.made, m.commit = head ∧
      m.unavailable = [] ∧ head ∈ c.facts.verified ∧
        ∃ marker, some c.now = some marker ∧ m.shown ≤ marker := by
    intro head hhead
    obtain ⟨m, hm, hcommit, hnone, hverified, marker, hmark, hle⟩ := hbacked head hhead
    exact ⟨m, hm, hcommit, hnone, hverified, c.now, rfl, Nat.le_trans hle (hmarker marker hmark)⟩
  have hnow : ∀ marker ∈ some c.now, marker ≤ c.now := by simp
  cases he with
  | kept time hw hr hf =>
    subst hf
    exact ⟨Nat.le_trans hproject (Nat.le_add_right _ _),
      fun marker hm => Nat.le_trans (hmarker marker hm) (Nat.le_add_right _ _), hdistinct, hbacked⟩
  | saved later hw hr hf =>
    subst hf
    refine ⟨Nat.le_refl _, fun marker hm => ?_, hdistinct, hbacked⟩
    have hle : marker ≤ c.now := hmarker marker hm
    show marker ≤ c.now + later + 1
    omega
  | rewrote hw hr hf =>
    subst hf
    exact ⟨hproject, hnow, hdistinct, hlater⟩
  | committed m hw hr hnew hf =>
    subst hf
    refine ⟨hproject, hnow, List.nodup_cons.mpr ⟨hnew, hdistinct⟩, fun head hhead => ?_⟩
    obtain ⟨m', hm', hrest⟩ := hlater head hhead
    exact ⟨m', List.mem_cons_of_mem _ hm', hrest⟩
  | verified commit hw hr hf =>
    subst hf
    refine ⟨hproject, hmarker, hdistinct, fun head hhead => ?_⟩
    obtain ⟨m, hm, hcommit, hnone, hverified, hrest⟩ := hbacked head hhead
    exact ⟨m, hm, hcommit, hnone, List.mem_cons_of_mem _ hverified, hrest⟩
  | recorded prepared commit hw hr hlocal hm hv hp hf =>
    subst hf
    refine ⟨hproject, hnow, hdistinct, fun head hhead => ?_⟩
    cases hhead
    exact ⟨_, hm, rfl, rfl, hv, c.now, rfl, Nat.le_trans hp hproject⟩

theorem Sound.step [DecidableEq Hash] (hs : Sound c) (h : c.step e = some c') : Sound c' := by
  obtain ⟨he, hphase⟩ := step_effect hs h
  exact ⟨he.sound hs.facts, hphase⟩

theorem sound_start (now : Nat) : Sound (Computer.start now : Computer Hash) where
  facts :=
    ⟨Nat.le_refl _, fun _ h => (by cases h), List.nodup_nil, fun _ h => (by cases h)⟩
  phase _ _ h := by cases h

/-- The promise of the status, about the facts. -/
def Facts.Truthful (f : Facts Hash) : Prop :=
  ∀ head, f.Safe head → ∃ m ∈ f.made, m.commit = head ∧ m.unavailable = [] ∧
    head ∈ f.verified ∧ f.project ≤ m.shown

theorem truthful_iff [DecidableEq Hash] : c.Truthful ↔ c.facts.Truthful := by
  rw [Computer.Truthful, status_downloaded_iff]
  constructor
  · intro h head hsafe
    obtain ⟨m, hm, hlocal, hnone, hverified, hproject⟩ := h ⟨head, hsafe⟩
    have hcommit : some head = some m.commit := hsafe.localHead.symm.trans hlocal
    cases hcommit
    exact ⟨m, hm, rfl, hnone, hverified, hproject⟩
  · intro h ⟨head, hsafe⟩
    obtain ⟨m, hm, rfl, hrest⟩ := h head hsafe
    exact ⟨m, hm, hsafe.localHead, hrest⟩

theorem Facts.Sound.eq_of_commit_eq {m m' : Made Hash} (hs : f.Sound) (hm : m ∈ f.made)
    (hm' : m' ∈ f.made) (h : m.commit = m'.commit) : m = m' :=
  List.inj_on_of_nodup_map hs.distinct hm hm' h

theorem careful_of_neither (hw : c.rewrites e = false) (hr : c.records e = none) :
    c.Careful e := by
  constructor
  · intro h
    rw [hw] at h
    cases h
  · intro prepared h
    rw [hr] at h
    cases h

/-- Rewriting the sidecar is harmless just when the status was not hiding a newer save. -/
theorem truthful_rewrote (hs : c.facts.Sound) (ht : c.facts.Truthful) (hw : c.rewrites e = true)
    (hr : c.records e = none) :
    ({ c.facts with marker := some c.now } : Facts Hash).Truthful ↔ c.Careful e := by
  constructor
  · intro h
    refine ⟨fun _ hlocal hagree marker hmarker => ?_, fun prepared hp => ?_⟩
    · obtain ⟨head, hhead⟩ := Option.ne_none_iff_exists'.mp hlocal
      have hverified : c.facts.verifiedHead = some head := hagree.trans hhead
      obtain ⟨m, hm, hcommit, _, _, hproject⟩ :=
        h head ⟨hhead, hverified, fun marker hmark => by
          cases hmark
          exact hs.project_le⟩
      obtain ⟨m', hm', hcommit', _, _, other, hother, hle⟩ := hs.backedUp head hverified
      have hsame : m = m' := hs.eq_of_commit_eq hm hm' (hcommit.trans hcommit'.symm)
      have hmark : some marker = some other := hmarker.symm.trans hother
      cases hmark
      subst hsame
      exact Nat.le_trans hproject hle
    · rw [hr] at hp
      cases hp
  · intro h head ⟨hlocal, hverified, _⟩
    apply ht head ⟨hlocal, hverified, ?_⟩
    apply h.1 hw
    · rw [show c.sidecar.localHead = some head from hlocal]
      exact Option.some_ne_none head
    · exact hverified.trans hlocal.symm

/-- A verification is recorded rightly just when the project was not saved meanwhile. -/
theorem truthful_recorded {prepared : PreparedBackup} {commit : Hash} (hs : c.facts.Sound)
    (hw : c.rewrites e = false) (hr : c.records e = some prepared)
    (hlocal : c.sidecar.localHead = some commit) (hm : ⟨commit, prepared.shown, []⟩ ∈ c.made)
    (hv : commit ∈ c.verified) (hp : prepared.shown ≤ c.project) :
    ({ c.facts with marker := some c.now, verifiedHead := some commit } : Facts Hash).Truthful ↔
      c.Careful e := by
  constructor
  · intro h
    refine ⟨fun hrewrites => ?_, fun other hother => ?_⟩
    · rw [hw] at hrewrites
      cases hrewrites
    · have hprepared : some prepared = some other := hr.symm.trans hother
      cases hprepared
      obtain ⟨m, hm', hcommit, _, _, hproject⟩ :=
        h commit ⟨hlocal, rfl, fun marker hmark => by
          cases hmark
          exact hs.project_le⟩
      have hsame := hs.eq_of_commit_eq hm' hm hcommit
      subst hsame
      exact Nat.le_antisymm hproject hp
  · intro h head ⟨hhead, _, _⟩
    have hcommit : some commit = some head := hlocal.symm.trans hhead
    cases hcommit
    exact ⟨_, hm, rfl, rfl, hv, Nat.le_of_eq (h.2 prepared hr)⟩

theorem Effect.truthful_iff (hs : c.facts.Sound) (ht : c.facts.Truthful) (he : Effect c e f) :
    f.Truthful ↔ c.Careful e := by
  cases he with
  | kept time hw hr hf =>
    subst hf
    exact ⟨fun _ => careful_of_neither hw hr,
      fun _ head ⟨hlocal, hverified, hproject⟩ => ht head ⟨hlocal, hverified, hproject⟩⟩
  | saved later hw hr hf =>
    subst hf
    refine ⟨fun _ => careful_of_neither hw hr, fun _ head ⟨_, hverified, hproject⟩ => ?_⟩
    obtain ⟨_, _, _, _, _, marker, hmarker, _⟩ := hs.backedUp head hverified
    have hle : marker ≤ c.now := hs.marker_le marker hmarker
    have hsaved : c.now + later + 1 ≤ marker := hproject marker hmarker
    omega
  | rewrote hw hr hf =>
    subst hf
    exact truthful_rewrote hs ht hw hr
  | committed m hw hr hnew hf =>
    subst hf
    refine ⟨fun _ => careful_of_neither hw hr, fun _ head ⟨hlocal, hverified, _⟩ => ?_⟩
    cases hlocal
    obtain ⟨m', hm', hcommit, _⟩ := hs.backedUp _ hverified
    exact absurd (List.mem_map.mpr ⟨m', hm', hcommit⟩) hnew
  | verified commit hw hr hf =>
    subst hf
    refine ⟨fun _ => careful_of_neither hw hr, fun _ head ⟨hlocal, hverified, hproject⟩ => ?_⟩
    obtain ⟨m, hm, hcommit, hnone, hmem, hshown⟩ := ht head ⟨hlocal, hverified, hproject⟩
    exact ⟨m, hm, hcommit, hnone, List.mem_cons_of_mem _ hmem, hshown⟩
  | recorded prepared commit hw hr hlocal hm hv hp hf =>
    subst hf
    exact truthful_recorded hs hw hr hlocal hm hv hp

/-- After a truthful status a step keeps it so just when it is careful. -/
theorem step_truthful_iff [DecidableEq Hash] (hs : Sound c) (ht : c.Truthful)
    (h : c.step e = some c') : c'.Truthful ↔ c.Careful e := by
  rw [BackupStatus.truthful_iff] at ht ⊢
  exact (step_effect hs h).1.truthful_iff hs.facts ht

end Steps

/-! Runs. -/

section Runs
variable [DecidableEq Hash] {c c' : Computer Hash} {events : List (Event Hash)}

theorem run_append {c c' : Computer Hash} {past : List (Event Hash)} {e : Event Hash} :
    c.run (past ++ [e]) = some c' ↔ ∃ c₁, c.run past = some c₁ ∧ c₁.step e = some c' := by
  simp [Computer.run, List.foldlM_append, Option.bind_eq_some_iff]

theorem Sound.run (hs : Sound c) (h : c.run events = some c') : Sound c' := by
  induction events using List.reverseRecOn generalizing c' with
  | nil =>
    cases h
    exact hs
  | append_singleton past e ih =>
    obtain ⟨c₁, hpast, hstep⟩ := run_append.mp h
    exact (ih hpast).step hstep

theorem truthful_start (now : Nat) : (Computer.start now : Computer Hash).Truthful := by
  intro h
  obtain ⟨head, hsafe⟩ := status_downloaded_iff.mp h
  cases hsafe.localHead

/-- The status is truthful all along a run just when every step of the run is careful. -/
theorem status_truthful_iff (now : Nat) (events : List (Event Hash)) :
    (∀ past c, past <+: events → (Computer.start now).run past = some c → c.Truthful) ↔
      ∀ past e c c', past ++ [e] <+: events → (Computer.start now).run past = some c →
        c.step e = some c' → c.Careful e := by
  constructor
  · intro h past e c c' hprefix hpast hstep
    have hs : Sound c := (sound_start now).run hpast
    have ht : c.Truthful := h past c ((List.prefix_append past [e]).trans hprefix) hpast
    rw [← step_truthful_iff hs ht hstep]
    exact h (past ++ [e]) c' hprefix (run_append.mpr ⟨c, hpast, hstep⟩)
  · intro h past
    induction past using List.reverseRecOn with
    | nil =>
      intro c _ hrun
      cases hrun
      exact truthful_start now
    | append_singleton past e ih =>
      intro c' hprefix hrun
      obtain ⟨c, hpast, hstep⟩ := run_append.mp hrun
      have ht := ih c ((List.prefix_append past [e]).trans hprefix) hpast
      rw [step_truthful_iff ((sound_start now).run hpast) ht hstep]
      exact h past e c c' hprefix hpast hstep

/-- The steps of a first backup up to its verification. -/
def firstBackup (job : Job) (commit : Hash) : List (Event Hash) :=
  .beginBackup job ::
    [.stat true, .readSnapshot, .stat true, .openProvider, .saveLocation, .commit commit 1 [],
      .verify true, .reread true].map .backUp

/-- After a good backup the project is saved; the next backup writes the location and then
cannot reach the provider. -/
def interruptedRun (job : Job) (commit : Hash) : List (Event Hash) :=
  firstBackup job commit ++ [.backUp .record, .save 0, .beginBackup job] ++
    [.stat true, .readSnapshot, .stat true, .openProvider, .saveLocation, .fail].map .backUp

/-- The project is saved while its first backup uploads. -/
def overlappedRun (job : Job) (commit : Hash) : List (Event Hash) :=
  firstBackup job commit ++ [.save 0, .backUp .record]

theorem interrupted_and_overlapped :
    let job : Job := ⟨"hosted", false, "song", some ⟨"Albums"⟩, true⟩
    (∃ c, (Computer.start 0).run (interruptedRun job 7) = some c ∧ ¬ c.Truthful) ∧
      ∃ c, (Computer.start 0).run (overlappedRun job 7) = some c ∧ ¬ c.Truthful := by
  constructor
  · refine ⟨_, rfl, fun h => ?_⟩
    obtain ⟨m, hm, _, _, _, hproject⟩ := h rfl
    cases List.mem_singleton.mp hm
    exact absurd hproject (by decide)
  · refine ⟨_, rfl, fun h => ?_⟩
    obtain ⟨m, hm, _, _, _, hproject⟩ := h rfl
    cases List.mem_singleton.mp hm
    exact absurd hproject (by decide)

end Runs

end AuruPm.BackupStatus
