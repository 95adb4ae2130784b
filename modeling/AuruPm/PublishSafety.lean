import AuruPm.MergeExisting

/-!
# A restore costs no copy

The previous tree stays in quarantine until every staged file was read back in its place. What fails
before that is a failed step, or the refusal to merge a link, so that with no further failure the
tree is put back.
-/

namespace AuruPm

set_option autoImplicit false

open FileTree Threads

namespace Restore

variable {hashOf : Bytes → ContentHash} {display : Place → List String → String}
variable {previous : Option (DirTree Bytes)} {expected : List (List String × ContentHash)} {copy : Nat}

/-! The verification. -/

/-- What the verification of these files ends with, from this state. -/
def Checked (n : Nat) (files : List (List String × ContentHash)) (s : Site)
    (r : Except RestoreError Unit) (s' : Site) : Prop :=
  Looked s s' ∧ Blamed n r s' ∧
    (r = .ok () → ∀ file ∈ files, (Place.finalRoot, file.1, file.2) ∈ s'.hashed)

/-- The verification of whole files fails with a failed step. -/
theorem verifyRestoreTree_meets {may : Site → Prop} {n : Nat}
    (files : List (List String × ContentHash)) {s : Site} (hmay : ∀ s', Looked s s' → may s')
    (hn : n ≤ s.failures + 1) (hwhole : Whole hashOf files s ∨ n ≤ s.failures) :
    Meets Eq (Step hashOf) (fun s _ => may s) (Checked n files s)
      (verifyRestoreTree display .finalRoot files) s := by
  induction files generalizing s with
  | nil => exact ends ⟨Looked.rfl, Blamed.ok n s, fun _ file h => by cases h⟩
  | cons file rest ih =>
    apply look_bind (show Looks (.hashFile _ _) from trivial) (hmay s Looked.rfl)
    · intro actual s₁ h₁ hl₁
      obtain ⟨bytes, hbytes, h₁⟩ := Option.map_eq_some_iff.mp h₁
      have hle := hl₁.failures
      split
      · rename_i hactual
        have hlogged : (Place.finalRoot, file.1, file.2) ∈ s₁.hashed := by
          cases h₁
          rw [← hactual]
          exact List.mem_cons_self
        have hrest : Whole hashOf rest s₁ ∨ n ≤ s₁.failures := by
          refine hwhole.imp (fun h => ?_) (·.trans hle)
          exact Whole.looked (fun file hf => h file (List.mem_cons_of_mem _ hf)) hl₁
        apply (ih (fun s' hl => hmay s' (hl₁.trans hl)) (by omega) hrest).weaken
        intro r s₂ ⟨hl₂, hblamed, hall⟩
        refine ⟨hl₁.trans hl₂, hblamed, fun hr other hother => ?_⟩
        cases hother with
        | head => exact hl₂.hashed _ hlogged
        | tail _ hother => exact hall hr other hother
      · rename_i hactual
        apply fails
        refine ⟨hl₁, ?_, fun h => by cases h⟩
        rcases hwhole with hwhole | hfailed
        · obtain ⟨bytes', hbytes', hhash⟩ := hwhole file List.mem_cons_self
          rw [hbytes', Option.bind_some, DirTree.contents_file] at hbytes
          cases hbytes
          cases h₁
          exact absurd hhash hactual
        · exact Blamed.of_failed (hfailed.trans hle)
    · intro text s' hl hfailed
      exact ⟨hl, Blamed.of_failed (by omega), fun h => by cases h⟩

/-! What was hashed stays hashed. -/

theorem Site.write_hashed {s s' : Site} {place : Place} {path : List String} {new : DirTree Bytes}
    (h : s.write place path new = some s') : s'.hashed = s.hashed := by
  obtain ⟨t, -, rfl⟩ := Option.map_eq_some_iff.mp h
  rfl

theorem rename_effect {s s' : Site} {source target : Place} {a : Unit}
    (h : effect hashOf s (.rename source target) = some (a, s')) :
    ∃ t, s.places source = some t ∧ t.replaces (s.places target) = true ∧
      s' = (s.set source none).set target (some t) := by
  obtain ⟨t, ht, h⟩ := Option.bind_eq_some_iff.mp h
  obtain ⟨hreplaces, h⟩ := Option.ite_none_right_eq_some.mp h
  cases h
  exact ⟨t, ht, hreplaces, rfl⟩

theorem effect_hashed {s s' : Site} {op : TreeOp} {a : op.Answer}
    (h : effect hashOf s op = some (a, s')) : ∀ file ∈ s.hashed, file ∈ s'.hashed := by
  intro file hfile
  by_cases hop : Looks op
  · exact (effect_looked hop h).hashed file hfile
  cases op with
  | rename source target =>
    obtain ⟨t, -, -, rfl⟩ := rename_effect h
    exact hfile
  | createDir place path =>
    rw [Site.write_hashed (createDir_effect h).2]
    exact hfile
  | copy source target path =>
    obtain ⟨bytes, -, h⟩ := Option.bind_eq_some_iff.mp h
    obtain ⟨-, h⟩ := Option.ite_none_right_eq_some.mp h
    obtain ⟨s₁, hw, h⟩ := Option.map_eq_some_iff.mp h
    cases h
    rw [Site.write_hashed hw]
    exact hfile
  | removeDirAll place =>
    obtain ⟨t, -, h⟩ := Option.bind_eq_some_iff.mp h
    obtain ⟨-, h⟩ := Option.ite_none_right_eq_some.mp h
    cases h
    exact hfile
  | removeFile place =>
    obtain ⟨t, -, h⟩ := Option.bind_eq_some_iff.mp h
    obtain ⟨-, h⟩ := Option.ite_none_right_eq_some.mp h
    cases h
    exact hfile
  | _ => exact absurd trivial hop

theorem Step.hashed {s s' : Site} {op : TreeOp} {r : Except String op.Answer}
    (h : Step hashOf s op r s') : ∀ file ∈ s.hashed, file ∈ s'.hashed := by
  cases h with
  | ok h => exact effect_hashed h
  | failed => exact fun _ hf => hf
  | torn hw =>
    intro file hfile
    rw [Site.fail, Site.write_hashed hw]
    exact hfile

/-- Once all is verified any program is safe. -/
theorem Verified.meets {α : Type} {s : Site} (h : Verified expected s) (x : RestoreProg α) :
    Meets Eq (Step hashOf) (fun s _ => Safe previous expected s) (fun _ s => Verified expected s) x s := by
  refine Meets.invariant (fun s s' (hs : s = s') h => hs ▸ h) ?_ ?_ (Prog.only_true x) h
  · intro op s r s' _ hstep hv file hfile
    exact hstep.hashed _ (hv file hfile)
  · intro s op _ hv t _ _
    exact Or.inr (Or.inr hv)

/-! The staged tree. -/

mutual
theorem visitTree_whole (t : DirTree Bytes) {path : List String} {files : List (List String × ContentHash)}
    (h : visitTree hashOf display path t = .ok files) (hd : t.Distinct) :
    ∀ file ∈ files, ∃ below bytes, file.1 = path ++ below ∧
      treeAt below (some t) = some (.file bytes) ∧ hashOf bytes = file.2 := by
  cases t with
  | file bytes =>
    intro file hfile
    cases h
    cases List.mem_singleton.mp hfile
    exact ⟨[], bytes, (List.append_nil path).symm, rfl, rfl⟩
  | folder entries => exact visitEntries_whole entries h hd
  | special =>
    intro file hfile
    cases h
    cases hfile
  | _ => cases h
theorem visitEntries_whole (entries : List (String × DirTree Bytes)) {path : List String}
    {files : List (List String × ContentHash)}
    (h : visitEntries hashOf display path entries = .ok files) (hd : DirTree.DistinctEntries entries) :
    ∀ file ∈ files, ∃ below bytes, file.1 = path ++ below ∧
      treeAt below (some (.folder entries)) = some (.file bytes) ∧ hashOf bytes = file.2 := by
  intro file hfile
  cases entries with
  | nil =>
    cases h
    cases hfile
  | cons entry rest =>
    obtain ⟨name, t⟩ := entry
    obtain ⟨hfresh, ht, hrest⟩ := hd
    obtain ⟨first, hfirst, h⟩ := bind_ok_iff.mp h
    obtain ⟨others, hothers, h⟩ := bind_ok_iff.mp h
    cases h
    rcases List.mem_append.mp hfile with hfile | hfile
    · obtain ⟨below, bytes, hpath, hat, hhash⟩ := visitTree_whole t hfirst ht file hfile
      refine ⟨name :: below, bytes, by rw [hpath, List.append_assoc, List.singleton_append], ?_, hhash⟩
      rw [treeAt_cons_folder, lookup_cons_ite, if_pos rfl]
      exact hat
    · obtain ⟨below, bytes, hpath, hat, hhash⟩ := visitEntries_whole rest hothers hrest file hfile
      refine ⟨below, bytes, hpath, ?_, hhash⟩
      cases below with
      | nil => cases hat
      | cons name' below =>
        rw [treeAt_cons_folder] at hat ⊢
        rw [lookup_cons_ite]
        split
        · rename_i hname
          rw [hname, hfresh, treeAt_none] at hat
          cases hat
        · exact hat
end

/-! The restore. -/

theorem Step.rename_error {s s' : Site} {source target : Place} {error : String}
    (h : Step hashOf s (.rename source target) (.error error) s') : s' = s.fail := by
  cases h with
  | failed => rfl

theorem rename_meets {may : Site → TreeOp → Prop} {post : Except RestoreError Unit → Site → Prop}
    {source target : Place} {context : String} {s : Site} (hmay : may s (.rename source target))
    (hok : ∀ s', effect hashOf s (.rename source target) = some ((), s') → post (.ok ()) s')
    (herr : ∀ text, post (.error ⟨text, false⟩) s.fail) :
    Meets Eq (Step hashOf) may post (step (.rename source target) context) s := by
  intro s₁ hs
  cases hs
  refine ⟨hmay, fun r s₂ hstep => ?_⟩
  cases r with
  | ok a => exact ends (hok s₂ hstep.effect_eq)
  | error error =>
    cases hstep.rename_error
    exact fails (herr _)

section Publish
variable (previous expected)

/-- What the restore ends with. A panic ends it as an error does. -/
def Published {α : Type} (r : Except RestoreError α) (s : Site) : Prop :=
  Safe previous expected s ∧
    ∀ error, r = .error error → s.failures + error.refused.toNat ≤ 1 → s.places .finalRoot = previous

variable (hashOf) in
/-- From this state the program costs no copy. -/
abbrev Publishes {α : Type} (x : RestoreProg α) (s : Site) : Prop :=
  Meets Eq (Step hashOf) (fun s _ => Safe previous expected s) (Published previous expected) x s

end Publish

theorem Published.untouched {α : Type} {s : Site} {r : Except RestoreError α}
    (h : s.places .finalRoot = previous) : Published previous expected r s :=
  ⟨Safe.of_final h, fun _ _ _ => h⟩

/-- The search for a free name touches nothing. -/
theorem uniqueQuarantine_meets (copies : List Nat) {s : Site} (h : s.places .finalRoot = previous) :
    Meets Eq (Step hashOf) (fun s _ => Safe previous expected s)
      (fun _ s' => s'.places = s.places) (uniqueQuarantine copies) s := by
  induction copies generalizing s with
  | nil => exact fails rfl
  | cons copy copies ih =>
    apply pathExists_bind (Safe.of_final h)
    intro there s₁ hl _
    split
    · apply (ih (hl.places ▸ h)).weaken
      intro r s₂ hs₂
      rw [hs₂, hl.places]
    · exact ends hl.places

/-- The previous tree is put back, or a step failed. -/
theorem rollbackReplacement_meets {s : Site} (h : s.places (.quarantine copy) = previous) :
    Meets Eq (Step hashOf) (fun s _ => Safe previous expected s)
      (fun r s' => Safe previous expected s' ∧ match r with
        | .ok () => s'.places .finalRoot = previous
        | .error _ => s.failures + 1 ≤ s'.failures)
      (rollbackReplacement (.quarantine copy)) s := by
  apply step_bind (Safe.of_quarantine h)
  · intro _ s₁ h₁
    obtain ⟨t, -, -, rfl⟩ := rename_effect h₁
    have hkept : (((s.set .finalRoot none).set .staging (some t)).places (.quarantine copy)) = previous := by
      rw [Site.set_ne Place.noConfusion, Site.set_ne Place.noConfusion]
      exact h
    apply rename_meets (Safe.of_quarantine hkept)
    · intro s₂ h₂
      obtain ⟨t', ht', -, rfl⟩ := rename_effect h₂
      have hback : previous = some t' := hkept.symm.trans ht'
      have hfinal : ((((s.set .finalRoot none).set .staging (some t)).set (.quarantine copy) none).set
          .finalRoot (some t')).places .finalRoot = previous := by
        rw [Site.set_self, hback]
      exact ⟨Safe.of_final hfinal, hfinal⟩
    · intro text
      exact ⟨Safe.of_quarantine hkept, le_refl _⟩
  · intro text error s₁ h₁
    cases h₁.rename_error
    exact ⟨Safe.of_quarantine h, le_refl _⟩

/-- The rename after a failure, whose own result is not looked at. -/
theorem putBack_publishes {α : Type} {error : RestoreError} {source target : Place} {s : Site}
    (hsafe : Safe previous expected s) (hfailed : 1 ≤ s.failures + error.refused.toNat)
    (hback : ∀ a s', effect hashOf s (.rename source target) = some (a, s') →
      Published previous expected (.error error : Except RestoreError α) s') :
    Publishes hashOf previous expected
      (do
        let _ ← Prog.attempt (.rename source target)
        (.fail error : RestoreProg α)) s := by
  apply Meets.attempt_bind
  intro s₁ hs
  cases hs
  refine ⟨hsafe, fun r s₂ hstep => ?_⟩
  cases r with
  | ok a => exact fails (hback a s₂ hstep.effect_eq)
  | error e =>
    cases hstep.rename_error
    refine fails ⟨hsafe, fun error' h hle => ?_⟩
    cases h
    change s.failures + 1 + error.refused.toNat ≤ 1 at hle
    omega

theorem completeInstall_meets (collision : RestoreCollisionChoice) {s : Site}
    (hs : Installed hashOf previous expected copy s) :
    Meets Eq (Step hashOf) (fun s _ => Safe previous expected s)
      (fun r s' => s'.places (.quarantine copy) = previous ∧ Blamed 1 r s' ∧
        (r = .ok () → Verified expected s'))
      (completeInstall display expected collision (.quarantine copy)) s := by
  have hverify : ∀ s, Installed hashOf previous expected copy s →
      Meets Eq (Step hashOf) (fun s _ => Safe previous expected s)
        (fun r s' => s'.places (.quarantine copy) = previous ∧ Blamed 1 r s' ∧
          (r = .ok () → Verified expected s'))
        (verifyRestoreTree display .finalRoot expected) s := by
    intro s hs
    apply (verifyRestoreTree_meets expected (fun s' hl => (hs.looked hl).safe)
      (Nat.le_add_left 1 _) hs.whole).weaken
    intro r s' ⟨hl, hblamed, hall⟩
    exact ⟨(hs.looked hl).kept, hblamed, hall⟩
  unfold completeInstall
  split
  · apply Meets.bind fun _ => rfl
    apply (copyMissing_merges s hs).weaken
    intro r s' ⟨hs', hblamed⟩
    cases r with
    | ok a => exact hverify s' hs'
    | error error => exact ⟨hs'.kept, fun _ h => by cases h; exact hblamed error rfl, fun h => by cases h⟩
  · exact hverify s hs

theorem settle_publishes (collision : RestoreCollisionChoice) {s : Site}
    (hs : Installed hashOf previous expected copy s) :
    Publishes hashOf previous expected (settle display expected collision (.quarantine copy)) s := by
  apply Meets.outcome_bind fun _ => rfl
  apply (completeInstall_meets collision hs).weaken
  intro r s₁ ⟨hkept, hblamed, hverified⟩
  cases r with
  | error error =>
    have hcount := hblamed error rfl
    apply Meets.outcome_bind fun _ => rfl
    apply (rollbackReplacement_meets hkept).weaken
    intro r s₂ ⟨hsafe, hr⟩
    cases r with
    | ok a => exact fails (Published.untouched hr)
    | error rollback =>
      refine fails ⟨hsafe, fun error' h hle => ?_⟩
      cases h
      have : s₁.failures + 1 ≤ s₂.failures := hr
      simp only at hle
      omega
  | ok a =>
    apply Meets.outcome_bind fun _ => rfl
    apply ((hverified rfl).meets _).weaken
    intro r s₂ hs₂
    have hsafe : Safe previous expected s₂ := fun _ _ _ => Or.inr (Or.inr hs₂)
    cases r with
    | ok a => exact ends ⟨hsafe, fun _ h => by cases h⟩
    | error error => exact ends ⟨hsafe, fun _ h => by cases h⟩

/-- In its folder the staged tree is whole. -/
theorem Whole.of_staged {staged : List (String × DirTree Bytes)} {s : Site}
    (hexpected : hashRestoreTree hashOf display staged = .ok expected)
    (hd : DirTree.DistinctEntries staged) (hs : s.places .finalRoot = some (.folder staged)) :
    Whole hashOf expected s := by
  intro file hfile
  obtain ⟨below, bytes, hpath, hat, hhash⟩ := visitEntries_whole staged hexpected hd file hfile
  refine ⟨bytes, ?_, hhash⟩
  rw [Site.find, hs, hpath]
  exact hat

theorem replaceExisting_publishes {staged : List (String × DirTree Bytes)}
    (hexpected : hashRestoreTree hashOf display staged = .ok expected)
    (hd : DirTree.DistinctEntries staged) (collision : RestoreCollisionChoice) {s : Site}
    (hfinal : s.places .finalRoot = previous) (hstaging : s.places .staging = some (.folder staged)) :
    Publishes hashOf previous expected (replaceExisting display expected collision) s := by
  apply Meets.bind fun _ => rfl
  apply (uniqueQuarantine_meets copyNumbers hfinal).weaken
  intro r s₁ hs₁
  rw [← hs₁] at hfinal hstaging
  cases r with
  | error error => exact Published.untouched hfinal
  | ok copy =>
    apply step_bind (Safe.of_final hfinal)
    · intro _ s₂ h₂
      obtain ⟨t, ht, -, rfl⟩ := rename_effect h₂
      generalize hs₂ : (s₁.set .finalRoot none).set (.quarantine copy) (some t) = s₂
      have hkept : s₂.places (.quarantine copy) = previous := by
        rw [← hs₂, Site.set_self, ← ht, hfinal]
      have hstaging₂ : s₂.places .staging = some (.folder staged) := by
        rw [← hs₂, Site.set_ne Place.noConfusion, Site.set_ne Place.noConfusion]
        exact hstaging
      apply Meets.outcome_bind fun _ => rfl
      apply rename_meets (Safe.of_quarantine hkept)
      · intro s₃ h₃
        obtain ⟨t', ht', -, rfl⟩ := rename_effect h₃
        rw [hstaging₂] at ht'
        cases ht'
        apply settle_publishes collision
        refine ⟨?_, Or.inl (Whole.of_staged hexpected hd (Site.set_self ..))⟩
        rw [Site.set_ne Place.noConfusion, Site.set_ne Place.noConfusion]
        exact hkept
      · intro text
        have hkept' : s₂.fail.places (.quarantine copy) = previous := hkept
        apply putBack_publishes (Safe.of_quarantine hkept')
          (Nat.le_add_right_of_le (Nat.le_add_left 1 s₂.failures))
        intro _ s₃ h₃
        obtain ⟨t', ht', -, rfl⟩ := rename_effect h₃
        apply Published.untouched
        rw [Site.set_self, ← ht']
        exact hkept'
    · intro text error s₂ h₂
      cases h₂.rename_error
      exact Published.untouched hfinal

/-- A folder is renamed into a place that is free, or that of an empty folder. -/
theorem folder_replaces {entries : List (String × DirTree Bytes)} {there : Option (DirTree Bytes)}
    (h : (DirTree.folder entries).replaces there = true) : there = none ∨ there = some (.folder []) := by
  cases there with
  | none => exact Or.inl rfl
  | some t =>
    cases t with
    | folder entries' =>
      cases entries' with
      | nil => exact Or.inr rfl
      | cons entry rest => cases h
    | _ => simp [DirTree.replaces, DirTree.kind] at h

/-- Where nothing was seen and the rename is done, nothing stood, or an empty folder that a failed
call did not show. -/
theorem publishNew_publishes {staged : List (String × DirTree Bytes)}
    (hexpected : hashRestoreTree hashOf display staged = .ok expected)
    (hd : DirTree.DistinctEntries staged) {s : Site} (hfinal : s.places .finalRoot = previous)
    (hstaging : s.places .staging = some (.folder staged))
    (hseen : previous = some (.folder []) → 1 ≤ s.failures) :
    Publishes hashOf previous expected (publishNew display expected) s := by
  apply step_bind (Safe.of_final hfinal)
  · intro _ s₁ h₁
    obtain ⟨t, ht, hreplaces, hs₁⟩ := rename_effect h₁
    rw [hstaging] at ht
    cases ht
    rw [hfinal] at hreplaces
    have hvacant := folder_replaces hreplaces
    have hsafe : ∀ s', Safe previous expected s' := by
      intro s' t ht hne
      rcases hvacant with h | h
      · rw [h] at ht
        cases ht
      · rw [h] at ht
        cases ht
        exact absurd rfl hne
    have hwhole : Whole hashOf expected s₁ := by
      apply Whole.of_staged hexpected hd
      rw [hs₁, Site.set_self]
    have hfailures : s₁.failures = s.failures := by
      rw [hs₁]
      rfl
    apply Meets.outcome_bind fun _ => rfl
    apply (verifyRestoreTree_meets expected (fun s' _ => hsafe s') (le_refl _) (Or.inl hwhole)).weaken
    intro r s₂ ⟨hl, hblamed, hall⟩
    cases r with
    | ok a => exact ends ⟨hsafe s₂, fun _ h => by cases h⟩
    | error error =>
      have hcount := hblamed error rfl
      apply putBack_publishes (hsafe s₂) (by omega)
      intro _ s₃ h₃
      obtain ⟨t', -, -, rfl⟩ := rename_effect h₃
      refine ⟨hsafe _, fun error' h hle => ?_⟩
      cases h
      rcases hvacant with hnone | hempty
      · rw [Site.set_ne Place.noConfusion, Site.set_self, hnone]
      · have hone := hseen hempty
        change s₂.failures + error.refused.toNat ≤ 1 at hle
        omega
  · intro text error s₁ h₁
    cases h₁.rename_error
    exact Published.untouched hfinal

/-- The program costs no copy, from wherever it starts. -/
theorem publish_publishes {staged : List (String × DirTree Bytes)}
    (hexpected : hashRestoreTree hashOf display staged = .ok expected)
    (hd : DirTree.DistinctEntries staged) (collision : RestoreCollisionChoice)
    (leftovers : Nat → Option (DirTree Bytes)) :
    Publishes hashOf previous expected (publishVerifiedRestore display expected collision)
      (Site.before staged previous leftovers) := by
  have hsafe : Safe previous expected (Site.before staged previous leftovers) := Safe.of_final rfl
  apply pathExists_bind hsafe
  intro there s hl hseen
  have hfinal : s.places .finalRoot = previous := by
    rw [hl.places]
    rfl
  have hstaging : s.places .staging = some (.folder staged) := by
    rw [hl.places]
    rfl
  cases there with
  | true =>
    rw [if_pos rfl]
    split
    · exact fails (Published.untouched hfinal)
    · exact replaceExisting_publishes hexpected hd collision hfinal hstaging
  | false =>
    rw [if_neg Bool.false_ne_true]
    apply publishNew_publishes hexpected hd hfinal hstaging
    intro hempty
    rcases hseen with hdangling | hfailed
    · have := (hdangling (.folder []) hempty).kind
      cases this
    · exact hfailed

/-- Wherever the program is stopped the previous tree stands in the restore folder or in quarantine,
until all is verified. Where it fails after one failed step at most, the tree stands in its folder. -/
theorem publish_keeps_previous {staged : List (String × DirTree Bytes)}
    (hexpected : hashRestoreTree hashOf display staged = .ok expected)
    (hd : DirTree.DistinctEntries staged) (previous : Option (DirTree Bytes))
    (collision : RestoreCollisionChoice) (leftovers : Nat → Option (DirTree Bytes)) :
    (∀ s, Stops (Step hashOf) (Site.before staged previous leftovers)
        (publishVerifiedRestore display expected collision) s → Safe previous expected s) ∧
      ∀ s error, Runs (Step hashOf) (Site.before staged previous leftovers)
          (publishVerifiedRestore display expected collision) s (.error error) →
        s.failures + error.refused.toNat ≤ 1 → s.places .finalRoot = previous := by
  have h : Publishes hashOf previous expected (publishVerifiedRestore display expected collision)
      (Site.before staged previous leftovers) :=
    publish_publishes hexpected hd collision leftovers
  constructor
  · intro s hs
    exact h.stops (fun _ _ hmay => hmay) (fun _ _ hpost => hpost.1) hs
  · intro s error hs
    exact (h.run hs).2 error rfl

/-- A hash of short files. -/
def paddedHash (bytes : Bytes) : ContentHash :=
  ⟨(bytes ++ List.replicate 32 0).take 32, by simp⟩

def pathText (_ : Place) (path : List String) : String := "/".intercalate path

def oneFile : List (String × DirTree Bytes) := [("Song.als", .file [1])]

def oneFileHashes : List (List String × ContentHash) := [(["Song.als"], paddedHash [1])]

theorem oneFile_keeps_previous :
    (∀ s, Stops (Step paddedHash) (Site.before oneFile (some (.file [2])) fun _ => none)
        (publishVerifiedRestore pathText oneFileHashes .deleteAndReplace) s →
      Safe (some (.file [2])) oneFileHashes s) ∧
      ∀ s error, Runs (Step paddedHash) (Site.before oneFile (some (.file [2])) fun _ => none)
          (publishVerifiedRestore pathText oneFileHashes .deleteAndReplace) s (.error error) →
        s.failures + error.refused.toNat ≤ 1 → s.places .finalRoot = some (.file [2]) :=
  publish_keeps_previous (by rfl) (by simp [oneFile, DirTree.DistinctEntries, DirTree.Distinct])
    (some (.file [2])) .deleteAndReplace fun _ => none

/-- A link that cannot be merged, and one failed step: the tree stays in quarantine. An empty folder
that a failed call did not show: it is replaced before anything is verified. -/
theorem refusal_and_one_failure :
    (∃ s error, Runs (Step paddedHash)
        (Site.before oneFile (some (.folder [("Samples", .danglingLink)])) fun _ => none)
        (publishVerifiedRestore pathText oneFileHashes .overwrite) s (.error error) ∧
      s.failures = 1 ∧ s.places .finalRoot ≠ some (.folder [("Samples", .danglingLink)])) ∧
    ∃ s, Stops (Step paddedHash) (Site.before oneFile (some (.folder [])) fun _ => none)
        (publishVerifiedRestore pathText oneFileHashes .overwrite) s ∧
      s.failures = 1 ∧ (∀ place, s.places place ≠ some (.folder [])) ∧ s.hashed = [] := by
  constructor
  · refine ⟨_, _, Runs.call (Step.ok rfl) <| .call (.ok rfl) <| .call (.ok rfl) <| .call (.ok rfl) <|
      .call (.ok rfl) <| .call (.ok rfl) <| .call (.ok rfl) <| .call (.ok rfl) <|
      .call (.failed _ _ "busy") <| .fail _ _, rfl, fun h => ?_⟩
    have hmerged : treeAt ["Samples"] (some (.folder oneFile)) = some .danglingLink :=
      congrArg (treeAt ["Samples"]) h
    rw [oneFile, treeAt_cons_folder, lookup_cons_ite, if_neg (by decide)] at hmerged
    cases hmerged
  · refine ⟨_, Stops.call (Step.failed _ _ "not permitted") <| .call (.ok rfl) <| .here _ _, rfl, ?_, rfl⟩
    intro place h
    cases place <;> cases h

end Restore

end AuruPm
