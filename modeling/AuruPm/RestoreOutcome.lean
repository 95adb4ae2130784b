import AuruPm.Lib.Overlay
import AuruPm.PublishSafety

/-!
# What a restore leaves

A restore that ends well leaves the staged tree in its folder. Where the previous tree is to be kept
it is laid under the staged one, and is removed after that: a previous file that has no place beside
the staged tree is lost.
-/

namespace AuruPm

set_option autoImplicit false

open FileTree Threads

namespace Restore

variable {hashOf : Bytes → ContentHash} {display : Place → List String → String}

/-- A call whose failure the program takes for an answer. -/
def Probe : TreeOp → Prop
  | .pathExists _ _ => True
  | .isDir _ _ => True
  | _ => False

/-- A step of a file system whose probes tell what stands there. All else may fail. -/
def TruthfulStep (hashOf : Bytes → ContentHash) (s : Site) (op : TreeOp) (r : Except String op.Answer)
    (s' : Site) : Prop :=
  Step hashOf s op r s' ∧ (Probe op → ∃ a, r = .ok a)

/-- Where the program ends well it ends so. -/
abbrev Leads {α : Type} (hashOf : Bytes → ContentHash) (Q : α → Site → Prop) (x : RestoreProg α)
    (s : Site) : Prop :=
  Meets Eq (TruthfulStep hashOf) (fun _ _ => True) (onOk Q) x s

/-! Rules for calls. -/

section Rules
variable {α β : Type} {Q : α → Site → Prop} {s : Site}

theorem leads_done {a : α} (h : Q a s) : Leads hashOf Q (pure a) s := by
  rintro s' rfl
  exact h

theorem leads_fail (error : RestoreError) : Leads hashOf Q (.fail error) s := fun _ _ => trivial

theorem leads_step {op : TreeOp} {context : String} {f : op.Answer → RestoreProg α}
    (h : ∀ a s', effect hashOf s op = some (a, s') → Leads hashOf Q (f a) s') :
    Leads hashOf Q (step op context >>= f) s := by
  refine Meets.run_bind_ok (fun _ _ => trivial) fun s₁ a s₂ hs hstep => ?_
  cases hs
  exact h a s₂ hstep.1.effect_eq

theorem leads_last {op : TreeOp} {context : String} {Q : op.Answer → Site → Prop}
    (h : ∀ a s', effect hashOf s op = some (a, s') → Q a s') :
    Leads hashOf Q (step op context) s := by
  rintro s₁ rfl
  refine ⟨trivial, fun r s₂ hstep => ?_⟩
  cases r with
  | ok a => exact leads_done (h a s₂ hstep.1.effect_eq)
  | error error => exact leads_fail _

/-- A step that only looks. -/
theorem leads_look {op : TreeOp} (hop : Looks op) {context : String} {f : op.Answer → RestoreProg α}
    (h : ∀ a s', effect hashOf s op = some (a, s') → s'.places = s.places → Leads hashOf Q (f a) s') :
    Leads hashOf Q (step op context >>= f) s :=
  leads_step fun a s' ha => h a s' ha (effect_looked hop ha).places

theorem leads_pathExists {place : Place} {path : List String} {f : Bool → RestoreProg α}
    (h : Leads hashOf Q (f ((s.find place path).any fun t => decide (¬ t.Dangling))) s) :
    Leads hashOf Q (pathExists place path >>= f) s := by
  rintro s₁ rfl
  refine ⟨trivial, fun r s₂ hstep => ?_⟩
  obtain ⟨there, rfl⟩ := hstep.2 trivial
  cases hstep.1.effect_eq
  exact h

theorem leads_isDir {place : Place} {path : List String} {f : Bool → RestoreProg α}
    (h : Leads hashOf Q (f ((s.find place path).bind DirTree.listed).isSome) s) :
    Leads hashOf Q (isDir place path >>= f) s := by
  rintro s₁ rfl
  refine ⟨trivial, fun r s₂ hstep => ?_⟩
  obtain ⟨folder, rfl⟩ := hstep.2 trivial
  cases hstep.1.effect_eq
  exact h

theorem leads_bind {P : β → Site → Prop} {x : RestoreProg β} {f : β → RestoreProg α}
    (h : Leads hashOf P x s) (hf : ∀ b s', P b s' → Leads hashOf Q (f b) s') :
    Leads hashOf Q (x >>= f) s :=
  Meets.bind_ok (fun _ => rfl) h hf

theorem meets_any {post : Except RestoreError α → Site → Prop} (h : ∀ r s, post r s)
    (x : RestoreProg α) (s : Site) :
    Meets Eq (TruthfulStep hashOf) (fun _ _ => True) post x s := by
  have htrue : Meets Eq (TruthfulStep hashOf) (fun _ _ => True) (fun _ _ => True) x s :=
    Meets.invariant (fun _ _ _ _ => trivial) (fun _ _ _ _ _ _ _ => trivial)
      (fun _ _ _ _ => trivial) (Prog.only_true x) trivial
  exact htrue.weaken fun r s' _ => h r s'

/-- What fails whatever came before does not end well. -/
theorem leads_outcome_fails {x : RestoreProg β} {f : Except RestoreError β → RestoreProg α}
    (h : ∀ r, ∃ error, f r = .fail error) : Leads hashOf Q (x.outcome >>= f) s := by
  refine Meets.outcome_bind (fun _ => rfl) (meets_any (fun r s => ?_) x s)
  obtain ⟨error, hf⟩ := h r
  rw [hf]
  exact leads_fail error

theorem leads_attempt_fails {op : TreeOp} {f : Except String op.Answer → RestoreProg α}
    (h : ∀ r, ∃ error, f r = .fail error) : Leads hashOf Q (Prog.attempt op >>= f) s := by
  refine Meets.attempt_bind fun s₁ _ => ⟨trivial, fun r s₂ _ => ?_⟩
  obtain ⟨error, hf⟩ := h r
  rw [hf]
  exact leads_fail error

/-- Where a failure is looked at and then fails the call. -/
theorem leads_outcome {P : β → Site → Prop} {x : RestoreProg β}
    {f : Except RestoreError β → RestoreProg α} (h : Leads hashOf P x s)
    (hok : ∀ b s', P b s' → Leads hashOf Q (f (.ok b)) s')
    (herr : ∀ error s', Leads hashOf Q (f (.error error)) s') :
    Leads hashOf Q (x.outcome >>= f) s := by
  refine Meets.outcome_bind (fun _ => rfl) (h.weaken fun r s' hr => ?_)
  cases r with
  | ok b => exact hok b s' hr
  | error error => exact herr error s'

end Rules

/-! The merge. -/

section Merge
variable {copy : Nat} {previous : DirTree Bytes}

/-- The previous tree is in quarantine, and this tree in the restore folder. -/
structure Merging (copy : Nat) (previous root : DirTree Bytes) (s : Site) : Prop where
  kept : s.places (.quarantine copy) = some previous
  root : s.places .finalRoot = some root

theorem Merging.of_places {root : DirTree Bytes} {s s' : Site} (h : Merging copy previous root s)
    (hs : s'.places = s.places) : Merging copy previous root s' := by
  constructor
  · rw [hs, h.kept]
  · rw [hs, h.root]

theorem Merging.find {root : DirTree Bytes} {s : Site} (h : Merging copy previous root s)
    (path : List String) : s.find .finalRoot path = treeAt path (some root) := by
  rw [Site.find, h.root]

theorem Merging.source {root : DirTree Bytes} {s : Site} (h : Merging copy previous root s)
    (path : List String) : s.find (.quarantine copy) path = treeAt path (some previous) := by
  rw [Site.find, h.kept]

theorem Merging.write {root : DirTree Bytes} {s s' : Site} {path : List String} {new : DirTree Bytes}
    (h : Merging copy previous root s) (hw : s.write .finalRoot path new = some s') :
    ∃ root', writeAt new path (some root) = some root' ∧ Merging copy previous root' s' := by
  obtain ⟨root', hroot', rfl⟩ := Option.map_eq_some_iff.mp hw
  rw [h.root] at hroot'
  refine ⟨root', hroot', ?_, Site.set_self ..⟩
  rw [Site.set_ne Place.noConfusion]
  exact h.kept

/-- A part of the merge that puts these entries into a folder. -/
def Lays (hashOf : Bytes → ContentHash) (copy : Nat) (previous : DirTree Bytes) (path : List String)
    (entries entries' : List (String × DirTree Bytes)) (x : RestoreProg Unit) : Prop :=
  ∀ root s, Merging copy previous root s → Stands entries path root →
    Leads hashOf (fun _ s' => ∃ root', writeAt (.folder entries') path (some root) = some root' ∧
      Merging copy previous root' s') x s

theorem lays_done (path : List String) (entries : List (String × DirTree Bytes)) :
    Lays hashOf copy previous path entries entries (pure ()) :=
  fun root _ hs hstands => leads_done ⟨root, hstands, hs⟩

theorem Lays.bind {path : List String} {entries entries' entries'' : List (String × DirTree Bytes)}
    {x : RestoreProg Unit} {f : Unit → RestoreProg Unit}
    (hx : Lays hashOf copy previous path entries entries' x)
    (hf : Lays hashOf copy previous path entries' entries'' (f ())) :
    Lays hashOf copy previous path entries entries'' (x >>= f) := by
  intro root s hs hstands
  refine leads_bind (hx root s hs hstands) fun _ s₁ h₁ => ?_
  obtain ⟨root₁, hwrite₁, hs₁⟩ := h₁
  refine (hf root₁ s₁ hs₁ (.of_write hwrite₁)).weaken_ok fun _ s₂ h₂ => ?_
  obtain ⟨root₂, hwrite₂, hs₂⟩ := h₂
  exact ⟨root₂, (writeAt_writeAt hwrite₁).symm.trans hwrite₂, hs₂⟩

theorem lays_look {path : List String} {entries entries' : List (String × DirTree Bytes)} {op : TreeOp}
    (hop : Looks op) {context : String} {f : op.Answer → RestoreProg Unit}
    (h : ∀ a root s s', Merging copy previous root s → Stands entries path root →
      effect hashOf s op = some (a, s') →
      Lays hashOf copy previous path entries entries' (f a)) :
    Lays hashOf copy previous path entries entries' (step op context >>= f) := by
  intro root s hs hstands
  refine leads_look hop fun a s' ha hplaces => ?_
  exact h a root s s' hs hstands ha root s' (hs.of_places hplaces) hstands

/-- A part of the merge in a folder below. -/
theorem Lays.below {path : List String} {entries inner inner' : List (String × DirTree Bytes)}
    {name : String} {x : RestoreProg Unit} (hname : entries.lookup name = some (.folder inner))
    (h : Lays hashOf copy previous (path ++ [name]) inner inner' x) :
    Lays hashOf copy previous path entries (setEntry name (.folder inner') entries) x := by
  intro root s hs hstands
  refine (h root s hs (hstands.below hname)).weaken_ok fun _ s' h' => ?_
  obtain ⟨root', hwrite, hs'⟩ := h'
  exact ⟨root', (hstands.write name _).symm.trans hwrite, hs'⟩

/-- A file is copied where nothing stands. -/
theorem preserveFile_lays {path : List String} {entries : List (String × DirTree Bytes)} {name : String}
    {bytes : Bytes} (hsource : treeAt (path ++ [name]) (some previous) = some (.file bytes)) :
    Lays hashOf copy previous path entries (setEntry name (.file bytes) entries)
      (preserveFile display (.quarantine copy) .finalRoot (path ++ [name])) := by
  intro root s hs hstands
  refine leads_step fun _ s₁ h₁ => ?_
  obtain ⟨bytes₁, hbytes₁, h₁⟩ := Option.bind_eq_some_iff.mp h₁
  rw [hs.source, hsource, Option.bind_some, DirTree.contents_file] at hbytes₁
  cases hbytes₁
  obtain ⟨-, h₁⟩ := Option.ite_none_right_eq_some.mp h₁
  obtain ⟨s₂, hwrite, h₁⟩ := Option.map_eq_some_iff.mp h₁
  cases h₁
  obtain ⟨root', hroot', hs'⟩ := hs.write hwrite
  rw [hstands.write] at hroot'
  refine leads_look (show Looks (.hashFile _ _) from trivial) fun first s₃ _ hs₃ => ?_
  refine leads_look (show Looks (.hashFile _ _) from trivial) fun second s₄ _ hs₄ => ?_
  split
  · exact leads_done ⟨root', hroot', (hs'.of_places hs₃).of_places hs₄⟩
  · exact leads_fail _

theorem lays_same {path : List String} {entries entries' : List (String × DirTree Bytes)}
    (h : entries' = entries) : Lays hashOf copy previous path entries entries' (pure ()) := by
  rw [h]
  exact lays_done path entries

/-- One turn of the loop lays one entry under the folder. -/
theorem copyMissingEntry_lays {path : List String} {entries : List (String × DirTree Bytes)}
    {name : String} {t : DirTree Bytes} {below : RestoreProg Unit}
    (hsource : treeAt (path ++ [name]) (some previous) = some t)
    (hlinkless : DirTree.LinklessEntries entries)
    (hbelow : ∀ lower inner, t = .folder lower → DirTree.LinklessEntries inner →
      Lays hashOf copy previous (path ++ [name]) inner (overlayEntries lower inner) below) :
    Lays hashOf copy previous path entries
      (putEntry name entries (overlayTree t (entries.lookup name)))
      (copyMissingEntry display (.quarantine copy) .finalRoot (path ++ [name]) below) := by
  refine lays_look (show Looks (.nextEntry _ _) from trivial) fun _ _ _ _ _ _ _ => ?_
  refine lays_look (show Looks (.symlinkMetadata _ _) from trivial)
    fun metadata root s s' hs hstands hmetadata => ?_
  obtain ⟨t', ht', hkind⟩ := Option.map_eq_some_iff.mp hmetadata
  rw [hs.source, hsource] at ht'
  cases ht'
  cases hkind
  clear hmetadata hs hstands root s
  intro root s hs hstands
  refine leads_pathExists ?_
  rw [hs.find, hstands.lookup]
  cases hlookup : entries.lookup name with
  | some x =>
    have hx : ¬ x.Dangling := (hlinkless.lookup hlookup).not_dangling
    have hsame : setEntry name x entries = entries := setEntry_lookup hlookup
    simp only [Option.any_some, hx, not_false_eq_true, decide_true, if_true]
    cases t with
    | folder lower =>
      simp only [DirTree.kind, if_true]
      refine leads_isDir ?_
      rw [hs.find, hstands.lookup, hlookup]
      cases x with
      | folder inner =>
        simp only [Option.bind_some, DirTree.listed_folder, Option.isSome_some, if_true]
        rw [overlayTree, putEntry]
        exact (hbelow lower inner rfl (hlinkless.lookup hlookup)).below hlookup root s hs hstands
      | file bytes => exact lays_same hsame root s hs hstands
      | special => exact lays_same hsame root s hs hstands
      | link target => exact (hlinkless.lookup hlookup).elim
      | danglingLink => exact (hlinkless.lookup hlookup).elim
    | file bytes => exact lays_same hsame root s hs hstands
    | special => exact lays_same hsame root s hs hstands
    | danglingLink => exact lays_same hsame root s hs hstands
    | link target =>
      rw [overlayTree_link]
      exact lays_same hsame root s hs hstands
  | none =>
    simp only [Option.any_none, Bool.false_eq_true, if_false]
    cases t with
    | folder lower =>
      refine leads_step fun _ s₁ h₁ => ?_
      obtain ⟨root₁, hroot₁, hs₁⟩ := hs.write (createDir_effect h₁).2
      refine (hbelow lower [] rfl trivial root₁ s₁ hs₁ (.of_write hroot₁)).weaken_ok fun _ s₂ h₂ => ?_
      obtain ⟨root₂, hroot₂, hs₂⟩ := h₂
      rw [writeAt_writeAt hroot₁, hstands.write] at hroot₂
      exact ⟨root₂, hroot₂, hs₂⟩
    | file bytes => exact preserveFile_lays hsource root s hs hstands
    | special => exact lays_done path entries root s hs hstands
    | link target => exact leads_fail _
    | danglingLink => exact leads_fail _

mutual
theorem copyMissingTree_lays (path : List String) (t : DirTree Bytes) (hd : t.Distinct)
    (hsource : treeAt path (some previous) = some t) (lower inner : List (String × DirTree Bytes))
    (ht : t = .folder lower) (hlinkless : DirTree.LinklessEntries inner) :
    Lays hashOf copy previous path inner (overlayEntries lower inner)
      (copyMissingTree display (.quarantine copy) .finalRoot path t) := by
  cases t with
  | folder entries =>
    have heq : entries = lower := DirTree.folder.inj ht
    subst heq
    rw [copyMissingTree]
    refine lays_look (show Looks (.readDir _ _) from trivial) fun _ _ _ _ _ _ _ => ?_
    refine copyMissingEntries_lays path entries hd (fun entry hentry => ?_) inner hlinkless
    rw [treeAt_snoc, hsource, treeAt_cons_folder, treeAt]
    exact DirTree.DistinctEntries.lookup_of_mem hd hentry
  | _ => cases ht
theorem copyMissingEntries_lays (path : List String) (lower : List (String × DirTree Bytes))
    (hd : DirTree.DistinctEntries lower)
    (hsource : ∀ entry ∈ lower, treeAt (path ++ [entry.1]) (some previous) = some entry.2)
    (inner : List (String × DirTree Bytes)) (hlinkless : DirTree.LinklessEntries inner) :
    Lays hashOf copy previous path inner (overlayEntries lower inner)
      (copyMissingEntries display (.quarantine copy) .finalRoot path lower) := by
  cases lower with
  | nil =>
    rw [copyMissingEntries, overlayEntries]
    exact lays_done path inner
  | cons entry rest =>
    obtain ⟨name, t⟩ := entry
    rw [copyMissingEntries, overlayEntries]
    have hname := hsource (name, t) List.mem_cons_self
    refine (copyMissingEntry_lays hname hlinkless fun lower' inner' ht hinner' => ?_).bind ?_
    · exact copyMissingTree_lays (path ++ [name]) t hd.2.1 hname lower' inner' ht hinner'
    · exact copyMissingEntries_lays path rest hd.2.2
        (fun entry hentry => hsource entry (List.mem_cons_of_mem _ hentry)) _
        (putEntry_linkless name t hlinkless)
end

/-- The merge lays the previous folder under the staged one. -/
theorem copyMissing_leads {staged : List (String × DirTree Bytes)} {s : Site}
    (hs : Merging copy previous (.folder staged) s) (hd : previous.Distinct)
    (hl : previous.Linkless) (hstaged : DirTree.LinklessEntries staged) :
    Leads hashOf (fun _ s' => ∃ lower, previous = .folder lower ∧
      Merging copy previous (.folder (overlayEntries lower staged)) s')
      (copyMissing display (.quarantine copy) .finalRoot) s := by
  refine leads_look (show Looks (.readDir _ _) from trivial) fun entries s₁ h₁ hs₁ => ?_
  obtain ⟨entries', hentries, heq⟩ := Option.map_eq_some_iff.mp h₁
  obtain rfl : entries' = entries := (Prod.mk.inj heq).1
  rw [hs.source] at hentries
  cases previous with
  | folder lower =>
    simp only [treeAt, Option.bind_some, DirTree.listed_folder, Option.some.injEq] at hentries
    subst hentries
    have hsource (entry : String × DirTree Bytes) (h : entry ∈ lower) :
        treeAt ([] ++ [entry.1]) (some (.folder lower)) = some entry.2 := by
      rw [List.nil_append, treeAt_cons_folder, treeAt]
      exact DirTree.DistinctEntries.lookup_of_mem hd h
    refine (copyMissingEntries_lays [] lower hd hsource staged hstaged (.folder staged) s₁
      (hs.of_places hs₁) rfl).weaken_ok fun _ s₂ h₂ => ?_
    obtain ⟨root, hroot, hs₂⟩ := h₂
    cases hroot
    exact ⟨lower, rfl, hs₂⟩
  | link target => exact hl.elim
  | danglingLink => exact hl.elim
  | file bytes => cases hentries
  | special => cases hentries

end Merge

/-! The steps around the merge. -/

section Steps
variable {copy : Nat} {expected : List (List String × ContentHash)}
  {collision : RestoreCollisionChoice} {staged : List (String × DirTree Bytes)}

theorem verifyRestoreTree_leads {place : Place} (files : List (List String × ContentHash)) {s s₀ : Site}
    (hs : s.places = s₀.places) :
    Leads hashOf (fun _ s' => s'.places = s₀.places) (verifyRestoreTree display place files) s := by
  induction files generalizing s with
  | nil => exact leads_done hs
  | cons file rest ih =>
    refine leads_look (show Looks (.hashFile _ _) from trivial) fun actual s₁ _ hs₁ => ?_
    split
    · exact ih (hs₁.trans hs)
    · exact leads_fail _

theorem uniqueQuarantine_leads (copies : List Nat) (s : Site) :
    Leads hashOf (fun _ s' => s' = s) (uniqueQuarantine copies) s := by
  induction copies with
  | nil => exact leads_fail _
  | cons copy copies ih =>
    refine leads_pathExists ?_
    split
    · exact ih
    · exact leads_done rfl

/-- What the restore folder holds once a previous tree was replaced. -/
structure Replaced (collision : RestoreCollisionChoice) (previous : DirTree Bytes)
    (staged : List (String × DirTree Bytes)) (root : DirTree Bytes) : Prop where
  merged : collision = .overwrite →
    ∃ lower, previous = .folder lower ∧ root = .folder (overlayEntries lower staged)
  alone : collision ≠ .overwrite → root = .folder staged

theorem completeInstall_leads {previous : DirTree Bytes} {s : Site}
    (hs : Merging copy previous (.folder staged) s) (hd : previous.Distinct) (hl : previous.Linkless)
    (hstaged : DirTree.LinklessEntries staged) :
    Leads hashOf (fun _ s' => ∃ root, Replaced collision previous staged root ∧
      Merging copy previous root s')
      (completeInstall display expected collision (.quarantine copy)) s := by
  rw [completeInstall]
  split
  · rename_i hoverwrite
    refine leads_bind (copyMissing_leads hs hd hl hstaged) fun _ s₁ h₁ => ?_
    obtain ⟨lower, hlower, hs₁⟩ := h₁
    refine (verifyRestoreTree_leads expected rfl).weaken_ok fun _ s₂ hs₂ => ?_
    exact ⟨_, ⟨fun _ => ⟨lower, hlower, rfl⟩, fun h => absurd hoverwrite h⟩, hs₁.of_places hs₂⟩
  · rename_i hoverwrite
    refine (verifyRestoreTree_leads expected rfl).weaken_ok fun _ s₁ hs₁ => ?_
    exact ⟨_, ⟨fun h => absurd h hoverwrite, fun _ => rfl⟩, hs.of_places hs₁⟩

/-- What is done to a copy in quarantine. -/
def Discards (copy : Nat) (op : TreeOp) : Prop :=
  op = .symlinkMetadata (.quarantine copy) [] ∨ op = .removeDirAll (.quarantine copy) ∨
    op = .removeFile (.quarantine copy)

theorem removePath_only (copy : Nat) : (removePath (.quarantine copy)).Only (Discards copy) := by
  refine Prog.Only.bind (Prog.only_run (.inl rfl)) fun metadata => ?_
  split
  · exact Prog.only_run (.inr (.inl rfl))
  · exact Prog.only_run (.inr (.inr rfl))

theorem discards_keeps {s s' : Site} {op : TreeOp} {r : Except String op.Answer} (hop : Discards copy op)
    (h : TruthfulStep hashOf s op r s') : s'.places .finalRoot = s.places .finalRoot := by
  obtain ⟨h, -⟩ := h
  cases h with
  | failed => rfl
  | torn => rcases hop with hop | hop | hop <;> cases hop
  | ok h =>
    rcases hop with rfl | rfl | rfl
    · rw [(effect_looked (show Looks (.symlinkMetadata _ _) from trivial) h).places]
    · obtain ⟨t, -, h⟩ := Option.bind_eq_some_iff.mp h
      obtain ⟨-, h⟩ := Option.ite_none_right_eq_some.mp h
      cases h
      exact Site.set_ne Place.noConfusion
    · obtain ⟨t, -, h⟩ := Option.bind_eq_some_iff.mp h
      obtain ⟨-, h⟩ := Option.ite_none_right_eq_some.mp h
      cases h
      exact Site.set_ne Place.noConfusion

theorem settle_leads {previous : DirTree Bytes} {s : Site}
    (hs : Merging copy previous (.folder staged) s) (hd : previous.Distinct) (hl : previous.Linkless)
    (hstaged : DirTree.LinklessEntries staged) :
    Leads hashOf (fun _ s' => ∃ root, Replaced collision previous staged root ∧
      s'.places .finalRoot = some root)
      (settle display expected collision (.quarantine copy)) s := by
  refine leads_outcome (completeInstall_leads hs hd hl hstaged) ?_ fun error s₁ => ?_
  · rintro _ s₁ ⟨root, hroot, hs₁⟩
    have hkeeps : Meets Eq (TruthfulStep hashOf) (fun _ _ => True)
        (fun _ s' => s'.places .finalRoot = some root) (removePath (.quarantine copy)) s₁ := by
      refine Meets.invariant ?_ ?_ (fun _ _ _ _ => trivial) (removePath_only copy) hs₁.root
      · rintro s s' rfl h
        exact h
      · exact fun _ _ _ _ hop hstep h => (discards_keeps hop hstep).trans h
    refine Meets.outcome_bind (fun _ => rfl) (hkeeps.weaken fun r s₂ hs₂ => ?_)
    cases r with
    | ok _ => exact leads_done ⟨root, hroot, hs₂⟩
    | error error => exact leads_done ⟨root, hroot, hs₂⟩
  · refine leads_outcome_fails fun r => ?_
    cases r with
    | ok _ => exact ⟨_, rfl⟩
    | error rollback => exact ⟨_, rfl⟩

theorem replaceExisting_leads {previous : DirTree Bytes} {s : Site}
    (hprevious : s.places .finalRoot = some previous)
    (hstaging : s.places .staging = some (.folder staged))
    (hd : previous.Distinct) (hl : previous.Linkless) (hstaged : DirTree.LinklessEntries staged) :
    Leads hashOf (fun _ s' => ∃ root, Replaced collision previous staged root ∧
      s'.places .finalRoot = some root)
      (replaceExisting display expected collision) s := by
  refine leads_bind (uniqueQuarantine_leads copyNumbers s) fun copy s₀ hs₀ => ?_
  subst hs₀
  refine leads_step fun _ s₁ h₁ => ?_
  obtain ⟨t, ht, -, rfl⟩ := rename_effect h₁
  obtain rfl := Option.some.inj (hprevious.symm.trans ht)
  have hinstalled : Leads hashOf (fun _ s' => Merging copy previous (.folder staged) s')
      (step (.rename .staging .finalRoot) "install verified restore")
      ((s₀.set .finalRoot none).set (.quarantine copy) (some previous)) := by
    refine leads_last fun _ s₂ h₂ => ?_
    obtain ⟨t, ht, -, rfl⟩ := rename_effect h₂
    rw [Site.set_ne Place.noConfusion, Site.set_ne Place.noConfusion, hstaging] at ht
    cases ht
    refine ⟨?_, Site.set_self ..⟩
    rw [Site.set_ne Place.noConfusion, Site.set_ne Place.noConfusion, Site.set_self]
  refine leads_outcome hinstalled (fun _ s₂ hs₂ => ?_) fun error s₂ => ?_
  · exact settle_leads hs₂ hd hl hstaged
  · exact leads_attempt_fails fun _ => ⟨_, rfl⟩

theorem publishNew_leads {s : Site} (hstaging : s.places .staging = some (.folder staged)) :
    Leads hashOf (fun _ s' => s'.places .finalRoot = some (.folder staged) ∧
      ∀ copy, s'.places (.quarantine copy) = s.places (.quarantine copy))
      (publishNew display expected) s := by
  refine leads_step fun _ s₁ h₁ => ?_
  obtain ⟨t, ht, -, rfl⟩ := rename_effect h₁
  obtain rfl := Option.some.inj (hstaging.symm.trans ht)
  refine leads_outcome (verifyRestoreTree_leads expected rfl) (fun _ s₂ hs₂ => ?_) fun error s₂ => ?_
  · refine leads_done ⟨?_, fun copy => ?_⟩
    · rw [hs₂, Site.set_self]
    · rw [hs₂, Site.set_ne Place.noConfusion, Site.set_ne Place.noConfusion]
  · exact leads_attempt_fails fun _ => ⟨_, rfl⟩

/-- What `publish_verified_restore` leaves where it ends well. -/
theorem publish_leads {previous : Option (DirTree Bytes)} {leftovers : Nat → Option (DirTree Bytes)}
    (hd : ∀ t ∈ previous, t.Distinct) (hl : ∀ t ∈ previous, t.Linkless)
    (hstaged : DirTree.LinklessEntries staged) :
    Leads hashOf (fun _ s' =>
      (∀ t ∈ previous, collision ≠ .abortIfExists ∧ collision ≠ .duplicate ∧
        ∃ root, Replaced collision t staged root ∧ s'.places .finalRoot = some root) ∧
      (previous = none → s'.places .finalRoot = some (.folder staged) ∧
        ∀ copy, s'.places (.quarantine copy) = leftovers copy))
      (publishVerifiedRestore display expected collision) (Site.before staged previous leftovers) := by
  refine leads_pathExists ?_
  cases previous with
  | none =>
    refine (publishNew_leads rfl).weaken_ok fun _ s' hs' =>
      ⟨(fun t ht => nomatch ht), fun _ => hs'⟩
  | some t =>
    have hthere : ¬ t.Dangling := (hl t rfl).not_dangling
    have hfound : (Site.before staged (some t) leftovers).find .finalRoot [] = some t := rfl
    rw [hfound]
    simp only [Option.any_some, hthere, not_false_eq_true, decide_true, if_true]
    split
    · exact leads_fail _
    · rename_i hcollision
      obtain ⟨habort, hduplicate⟩ := not_or.mp hcollision
      refine (replaceExisting_leads rfl rfl (hd t rfl) (hl t rfl) hstaged).weaken_ok fun _ s' hs' => ?_
      refine ⟨fun t' ht' => ?_, fun h => nomatch h⟩
      cases ht'
      exact ⟨habort, hduplicate, hs'⟩

end Steps

/-! The folder that is chosen. -/

section Collision
variable (g : LexicalPath.Grammar) (there : LexicalPath.Path → Bool)

/-- The search of `unique_duplicate_root`, over these copy numbers. -/
def freeCopy (destination : LexicalPath.Path) (name : String) :
    List Nat → Except String LexicalPath.Path
  | [] => .error "the restore copy number cannot be exhausted"
  | copy :: copies =>
    let candidate := LexicalPath.join destination
      (LexicalPath.components g (name ++ " (" ++ toString copy ++ ")"))
    if there candidate then freeCopy destination name copies else .ok candidate

def uniqueDuplicateRoot (first : LexicalPath.Path) : Except String LexicalPath.Path :=
  if !there first then .ok first
  else
    freeCopy g there ((LexicalPath.parent first).getD [])
      ((LexicalPath.fileName first).getD "Project Restored") (List.range' 2 (2 ^ 31 - 2))

def resolveRestoreCollision (displayPath : LexicalPath.Path → String) (requested : LexicalPath.Path)
    (collision : RestoreCollisionChoice) : Except String LexicalPath.Path :=
  if !there requested then .ok requested
  else
    match collision with
    | .abortIfExists => .error (displayPath requested ++
        " now exists. Choose whether to delete, overwrite, duplicate, or ignore it.")
    | .duplicate => uniqueDuplicateRoot g there requested
    | .overwrite => .ok requested
    | .deleteAndReplace => .ok requested

variable {g there}

theorem freeCopy_free {destination root : LexicalPath.Path} {name : String} {copies : List Nat}
    (h : freeCopy g there destination name copies = .ok root) : there root = false := by
  induction copies with
  | nil => cases h
  | cons copy copies ih =>
    rw [freeCopy] at h
    split at h
    · exact ih h
    · rename_i hfree
      cases h
      exact Bool.eq_false_iff.mpr hfree

/-- Nothing stands in a folder that a restore is not to replace. -/
theorem resolveRestoreCollision_free {displayPath : LexicalPath.Path → String}
    {requested root : LexicalPath.Path} {collision : RestoreCollisionChoice}
    (hcollision : collision = .abortIfExists ∨ collision = .duplicate)
    (h : resolveRestoreCollision g there displayPath requested collision = .ok root) :
    there root = false := by
  unfold resolveRestoreCollision at h
  split at h
  · rename_i hfree
    cases h
    exact (Bool.not_eq_true' _).mp hfree
  · rcases hcollision with rfl | rfl
    · cases h
    · change uniqueDuplicateRoot g there requested = .ok root at h
      unfold uniqueDuplicateRoot at h
      split at h
      · rename_i hfree
        cases h
        exact (Bool.not_eq_true' _).mp hfree
      · exact freeCopy_free h

end Collision

/-! What is left. -/

mutual
theorem visitTree_linkless (t : DirTree Bytes) {path : List String}
    {files : List (List String × ContentHash)} (h : visitTree hashOf display path t = .ok files) :
    t.Linkless := by
  cases t with
  | folder entries => exact visitEntries_linkless entries h
  | file bytes => trivial
  | special => trivial
  | link target =>
    rw [visitTree] at h
    cases h
  | danglingLink => cases h
theorem visitEntries_linkless (entries : List (String × DirTree Bytes)) {path : List String}
    {files : List (List String × ContentHash)}
    (h : visitEntries hashOf display path entries = .ok files) : DirTree.LinklessEntries entries := by
  cases entries with
  | nil => trivial
  | cons entry rest =>
    obtain ⟨name, t⟩ := entry
    obtain ⟨first, hfirst, h⟩ := bind_ok_iff.mp h
    obtain ⟨others, hothers, -⟩ := bind_ok_iff.mp h
    exact ⟨visitTree_linkless t hfirst, visitEntries_linkless rest hothers⟩
end

/-- What was asked for, of a restore that ended well. -/
structure RestoreLeaves (staged : List (String × DirTree Bytes)) (previous : Option (DirTree Bytes))
    (leftovers : Nat → Option (DirTree Bytes)) (collision : RestoreCollisionChoice) (s : Site) :
    Prop where
  holds : ∀ path bytes, treeAt path (some (.folder staged)) = some (.file bytes) →
    s.find .finalRoot path = some (.file bytes)
  alone : collision = .deleteAndReplace ∨ previous = none →
    s.places .finalRoot = some (.folder staged)
  kept : collision = .overwrite → ∀ path bytes, treeAt path previous = some (.file bytes) →
    (∀ other, treeAt path (some (.folder staged)) ≠ some (.file other)) →
    s.find .finalRoot path = some (.file bytes)
  unchanged : collision = .abortIfExists ∨ collision = .duplicate →
    previous = none ∧ ∀ copy, s.places (.quarantine copy) = leftovers copy

/-- Every previous file at a path where no file is staged has a place beside the staged tree. -/
def FitsUnder (staged : List (String × DirTree Bytes)) (previous : Option (DirTree Bytes)) : Prop :=
  ∀ path bytes, treeAt path previous = some (.file bytes) →
    (∀ other, treeAt path (some (.folder staged)) ≠ some (.file other)) →
    Fits path (some (.folder staged))

section Main
variable {staged : List (String × DirTree Bytes)} {expected : List (List String × ContentHash)}
  {collision : RestoreCollisionChoice} {leftovers : Nat → Option (DirTree Bytes)} {s : Site}

theorem Replaced.leaves_iff {t root : DirTree Bytes} (h : Replaced collision t staged root)
    (hroot : s.places .finalRoot = some root) (hd : t.Distinct) (hl : t.Linkless)
    (habort : collision ≠ .abortIfExists) (hduplicate : collision ≠ .duplicate) :
    RestoreLeaves staged (some t) leftovers collision s ↔
      (collision = .overwrite → FitsUnder staged (some t)) := by
  have hfind (path : List String) : s.find .finalRoot path = treeAt path (some root) := by
    rw [Site.find, hroot]
  have hunchanged (hcollision : collision = .abortIfExists ∨ collision = .duplicate) :
      some t = none ∧ ∀ copy, s.places (.quarantine copy) = leftovers copy := by
    rcases hcollision with h | h
    · exact absurd h habort
    · exact absurd h hduplicate
  by_cases hoverwrite : collision = .overwrite
  · obtain ⟨lower, rfl, rfl⟩ := h.merged hoverwrite
    have hlaid : some (.folder (overlayEntries lower staged)) =
        overlayTree (.folder lower) (some (.folder staged)) := by rw [overlayTree]
    have hkept : (∀ path bytes, treeAt path (some (.folder lower)) = some (.file bytes) →
          (∀ other, treeAt path (some (.folder staged)) ≠ some (.file other)) →
          s.find .finalRoot path = some (.file bytes)) ↔ FitsUnder staged (some (.folder lower)) := by
      refine forall_congr' fun path => forall_congr' fun bytes => forall_congr' fun hfile =>
        forall_congr' fun hnone => ?_
      rw [hfind, hlaid]
      exact overlay_adds_iff hd hl hfile hnone
    constructor
    · exact fun hleaves _ => hkept.mp (hleaves.kept hoverwrite)
    · intro hfits
      refine ⟨fun path bytes hfile => ?_, fun hcollision => ?_, fun _ => hkept.mpr (hfits hoverwrite),
        hunchanged⟩
      · rw [hfind, hlaid]
        exact overlay_keeps hd hfile
      · rcases hcollision with hcollision | hcollision
        · rw [hoverwrite] at hcollision
          cases hcollision
        · cases hcollision
  · have hsame := h.alone hoverwrite
    refine iff_of_true ⟨fun path bytes hfile => ?_, fun _ => ?_, fun h => absurd h hoverwrite,
      hunchanged⟩ fun h => absurd h hoverwrite
    · rw [hfind, hsame]
      exact hfile
    · rw [hroot, hsame]

/-- A restore that ends well leaves what was chosen just where every previous file that is to be kept
has a place beside the staged tree. -/
theorem restore_leaves_iff {previous : Option (DirTree Bytes)} {result : Option Place}
    (hexpected : hashRestoreTree hashOf display staged = .ok expected)
    (hd : ∀ t ∈ previous, t.Distinct) (hl : ∀ t ∈ previous, t.Linkless)
    (hr : Runs (TruthfulStep hashOf) (Site.before staged previous leftovers)
      (publishVerifiedRestore display expected collision) s (.ok result)) :
    RestoreLeaves staged previous leftovers collision s ↔
      (collision = .overwrite → FitsUnder staged previous) := by
  obtain ⟨hsome, hnone⟩ := (publish_leads hd hl (visitEntries_linkless staged hexpected)).run hr
  cases previous with
  | none =>
    obtain ⟨hfinal, hleftovers⟩ := hnone rfl
    refine iff_of_true ⟨fun path bytes hfile => ?_, fun _ => hfinal, fun _ path bytes hfile => ?_,
      fun _ => ⟨rfl, hleftovers⟩⟩ fun _ path bytes hfile => ?_
    · rw [Site.find, hfinal]
      exact hfile
    · rw [treeAt_none] at hfile
      cases hfile
    · rw [treeAt_none] at hfile
      cases hfile
  | some t =>
    obtain ⟨habort, hduplicate, root, hroot, hfinal⟩ := hsome t rfl
    exact hroot.leaves_iff hfinal (hd t rfl) (hl t rfl) habort hduplicate

end Main

theorem TruthfulStep.done {s s' : Site} {op : TreeOp} {a : op.Answer}
    (h : effect hashOf s op = some (a, s')) : TruthfulStep hashOf s op (.ok a) s' :=
  ⟨.ok h, fun _ => ⟨a, rfl⟩⟩

/-- A note beside the project is kept. -/
theorem note_kept : ∃ s : Site,
    Runs (TruthfulStep paddedHash)
      (Site.before oneFile (some (.folder [("Notes.txt", .file [2])])) fun _ => none)
      (publishVerifiedRestore pathText oneFileHashes .overwrite) s (.ok none) ∧
    (RestoreLeaves oneFile (some (.folder [("Notes.txt", .file [2])])) (fun _ => none) .overwrite s ↔
      (RestoreCollisionChoice.overwrite = .overwrite →
        FitsUnder oneFile (some (.folder [("Notes.txt", .file [2])])))) := by
  have hrun : ∃ s, Runs (TruthfulStep paddedHash)
      (Site.before oneFile (some (.folder [("Notes.txt", .file [2])])) fun _ => none)
      (publishVerifiedRestore pathText oneFileHashes .overwrite) s (.ok none) :=
    ⟨_, Runs.call (.done rfl) <| .call (.done rfl) <| .call (.done rfl) <| .call (.done rfl) <|
      .call (.done rfl) <| .call (.done rfl) <| .call (.done rfl) <| .call (.done rfl) <|
      .call (.done rfl) <| .call (.done rfl) <| .call (.done rfl) <| .call (.done rfl) <|
      .call (.done rfl) <| .call (.done rfl) <| .done _ _⟩
  obtain ⟨s, hs⟩ := hrun
  refine ⟨s, hs, restore_leaves_iff (by rfl) ?_ ?_ hs⟩
  · rintro t ⟨⟩
    simp [DirTree.Distinct, DirTree.DistinctEntries]
  · rintro t ⟨⟩
    simp [DirTree.Linkless, DirTree.LinklessEntries]

def stagedSamples : List (String × DirTree Bytes) := [("Samples", .folder [("kick.wav", .file [1])])]

/-- A file that has the name of a staged folder is neither merged nor kept. -/
theorem samples_file_lost : ∃ s : Site,
    Runs (TruthfulStep paddedHash)
      (Site.before stagedSamples (some (.folder [("Samples", .file [2])])) fun _ => none)
      (publishVerifiedRestore pathText [(["Samples", "kick.wav"], paddedHash [1])] .overwrite) s
      (.ok none) ∧
    hashRestoreTree paddedHash pathText stagedSamples =
      .ok [(["Samples", "kick.wav"], paddedHash [1])] ∧
    ¬ RestoreLeaves stagedSamples (some (.folder [("Samples", .file [2])])) (fun _ => none) .overwrite
      s := by
  refine ⟨_, Runs.call (.done rfl) <| .call (.done rfl) <| .call (.done rfl) <| .call (.done rfl) <|
    .call (.done rfl) <| .call (.done rfl) <| .call (.done rfl) <| .call (.done rfl) <|
    .call (.done rfl) <| .call (.done rfl) <| .call (.done rfl) <| .done _ _, by rfl, fun h => ?_⟩
  have hkept := h.kept rfl ["Samples"] [2] rfl fun other hother => nomatch hother
  cases hkept

end Restore

end AuruPm
