import AuruPm.Lib.FileTree

/-!
# New files

Files and folders that are created one after another, each with the folders on its way. What stands
where is then told by the list of what was created, and so is whether the next one can be.
-/

namespace FileTree

set_option autoImplicit false

variable {Content : Type}

/-- Changes what a path names, with the folders on the way created if they are missing. -/
def lay (leaf : Option (DirTree Content) → Option (DirTree Content)) :
    List String → Option (DirTree Content) → Option (DirTree Content)
  | [], t => leaf t
  | name :: path, none => (lay leaf path none).map fun t => .folder [(name, t)]
  | name :: path, some (.folder entries) =>
    (lay leaf path (entries.lookup name)).map fun t => .folder (setEntry name t entries)
  | _ :: _, some _ => none

/-- A file where nothing stands. -/
def newFile (content : Content) : Option (DirTree Content) → Option (DirTree Content)
  | none => some (.file content)
  | some _ => none

/-- A folder, unless something else stands there. -/
def newFolder : Option (DirTree Content) → Option (DirTree Content)
  | none => some (.folder [])
  | some (.folder entries) => some (.folder entries)
  | some _ => none

/-- Nothing, or a folder. -/
def Passable : Option (DirTree Content) → Prop
  | none => True
  | some (.folder _) => True
  | some _ => False

theorem treeAt_append (path rest : List String) (t : Option (DirTree Content)) :
    treeAt (path ++ rest) t = treeAt rest (treeAt path t) := by
  induction path generalizing t with
  | nil => rfl
  | cons name path ih =>
    cases t with
    | none => rw [treeAt_none, treeAt_none, treeAt_none]
    | some t =>
      simp only [List.cons_append, treeAt]
      cases t.listed with
      | none => rw [treeAt_none]
      | some entries => exact ih _

theorem treeAt_file {rest : List String} (h : rest ≠ []) (content : Content) :
    treeAt rest (some (.file content)) = none := by
  cases rest with
  | nil => exact absurd rfl h
  | cons => simp [treeAt, DirTree.listed]

section Lay
variable {leaf : Option (DirTree Content) → Option (DirTree Content)} {path : List String}
variable {t : Option (DirTree Content)} {t' : DirTree Content}

/-- A step below a name goes through a folder, perhaps a new one. -/
theorem lay_cons {name : String} (h : lay leaf (name :: path) t = some t') :
    ∃ entries u, (t = none ∧ entries = [] ∨ t = some (.folder entries)) ∧
      lay leaf path (entries.lookup name) = some u ∧ t' = .folder (setEntry name u entries) := by
  cases t with
  | none =>
    obtain ⟨u, hu, ht'⟩ := Option.map_eq_some_iff.mp h
    exact ⟨[], u, .inl ⟨rfl, rfl⟩, hu, ht'.symm⟩
  | some t =>
    cases t with
    | folder entries =>
      obtain ⟨u, hu, ht'⟩ := Option.map_eq_some_iff.mp h
      exact ⟨entries, u, .inr rfl, hu, ht'.symm⟩
    | _ => cases h

theorem treeAt_cons_of {name : String} {entries : List (String × DirTree Content)}
    (h : t = none ∧ entries = [] ∨ t = some (.folder entries)) (rest : List String) :
    treeAt (name :: rest) t = treeAt rest (entries.lookup name) := by
  rcases h with ⟨rfl, rfl⟩ | rfl
  · rw [treeAt_none, List.lookup_nil, treeAt_none]
  · exact treeAt_cons_folder name rest entries

/-- At the path stands what the leaf became. -/
theorem treeAt_lay (h : lay leaf path t = some t') :
    ∃ u, leaf (treeAt path t) = some u ∧ treeAt path (some t') = some u := by
  induction path generalizing t t' with
  | nil => exact ⟨t', h, rfl⟩
  | cons name path ih =>
    obtain ⟨entries, u, ht, hu, rfl⟩ := lay_cons h
    obtain ⟨v, hleaf, hv⟩ := ih hu
    refine ⟨v, ?_, ?_⟩
    · rw [treeAt_cons_of ht]
      exact hleaf
    · rw [treeAt_cons_folder, lookup_setEntry, if_pos rfl]
      exact hv

/-- On the way there are folders, where there were folders or nothing. -/
theorem treeAt_lay_above (h : lay leaf path t = some t') {q : List String} (hq : q <+: path)
    (hne : q ≠ path) : Passable (treeAt q t) ∧ ∃ entries, treeAt q (some t') = some (.folder entries) := by
  induction path generalizing t t' q with
  | nil => exact absurd (List.prefix_nil.mp hq) hne
  | cons name path ih =>
    obtain ⟨entries, u, ht, hu, rfl⟩ := lay_cons h
    cases q with
    | nil => exact ⟨by rcases ht with ⟨rfl, -⟩ | rfl <;> trivial, _, rfl⟩
    | cons name' q =>
      obtain ⟨rfl, hrest⟩ := List.cons_prefix_cons.mp hq
      rw [treeAt_cons_of ht, treeAt_cons_folder, lookup_setEntry, if_pos rfl]
      exact ih hu hrest fun heq => hne (by rw [heq])

/-- Away from the path nothing changes. -/
theorem treeAt_lay_other (h : lay leaf path t = some t') {q : List String} (hq : ¬ q <+: path)
    (hpath : ¬ path <+: q) : treeAt q (some t') = treeAt q t := by
  induction path generalizing t t' q with
  | nil => exact absurd q.nil_prefix hpath
  | cons name path ih =>
    obtain ⟨entries, u, ht, hu, rfl⟩ := lay_cons h
    cases q with
    | nil => exact absurd List.nil_prefix hq
    | cons name' q =>
      rw [treeAt_cons_of ht, treeAt_cons_folder, lookup_setEntry]
      by_cases hname : name' = name
      · subst hname
        rw [if_pos rfl]
        exact ih hu (fun h => hq (List.cons_prefix_cons.mpr ⟨rfl, h⟩))
          fun h => hpath (List.cons_prefix_cons.mpr ⟨rfl, h⟩)
      · rw [if_neg hname]

theorem lay_isSome_iff : (lay leaf path t).isSome = true ↔
    (∀ q, q <+: path → q ≠ path → Passable (treeAt q t)) ∧ (leaf (treeAt path t)).isSome = true := by
  constructor
  · intro h
    obtain ⟨t', ht'⟩ := Option.isSome_iff_exists.mp h
    obtain ⟨u, hleaf, -⟩ := treeAt_lay ht'
    exact ⟨fun q hq hne => (treeAt_lay_above ht' hq hne).1, by rw [hleaf]; rfl⟩
  · induction path generalizing t with
    | nil => exact fun h => h.2
    | cons name path ih =>
      rintro ⟨hway, hleaf⟩
      have hroot := hway [] List.nil_prefix (by simp)
      have hbelow : ∀ entries : List (String × DirTree Content),
          (t = none ∧ entries = [] ∨ t = some (.folder entries)) →
            (lay leaf path (entries.lookup name)).isSome = true := by
        intro entries ht
        refine ih ⟨fun q hq hne => ?_, treeAt_cons_of ht path ▸ hleaf⟩
        have hpassable := hway (name :: q) (List.cons_prefix_cons.mpr ⟨rfl, hq⟩) (by simpa using hne)
        rwa [treeAt_cons_of ht] at hpassable
      cases t with
      | none =>
        rw [lay, Option.isSome_map]
        exact hbelow [] (.inl ⟨rfl, rfl⟩)
      | some t =>
        cases t with
        | folder entries =>
          rw [lay, Option.isSome_map]
          exact hbelow entries (.inr rfl)
        | _ => cases hroot

end Lay

/-! What was created. -/

/-- Neither path leads through the other. -/
def Apart (p q : List String) : Prop := ¬ p <+: q ∧ ¬ q <+: p

/-- The files are those of the list, the folders are those of the list and those on the way to a
file or to a folder of the list, and there is nothing else. -/
structure Laid (files : List (List String × Content)) (folders : List (List String))
    (t : Option (DirTree Content)) : Prop where
  file : ∀ q content, treeAt q t = some (.file content) ↔ (q, content) ∈ files
  folder : ∀ q, (∃ entries, treeAt q t = some (.folder entries)) ↔
    (∃ f ∈ files, q <+: f.1 ∧ q ≠ f.1) ∨ ∃ d ∈ folders, q <+: d
  only : ∀ q u, treeAt q t = some u → (∃ content, u = .file content) ∨ ∃ entries, u = .folder entries

section Laid
variable {files : List (List String × Content)} {folders : List (List String)}
variable {t : Option (DirTree Content)} {t' : DirTree Content} {path : List String}

theorem laid_empty : Laid ([] : List (List String × Content)) [[]] (some (.folder [])) := by
  have hbelow : ∀ name rest, treeAt (name :: rest) (some (.folder ([] : List (String × DirTree Content)))) =
      none := by
    intro name rest
    rw [treeAt_cons_folder, List.lookup_nil, treeAt_none]
  refine ⟨fun q content => ?_, fun q => ?_, fun q u hu => ?_⟩
  · cases q with
    | nil => simp [treeAt]
    | cons name rest => simp [hbelow]
  · cases q with
    | nil => simp [treeAt]
    | cons name rest => simp [hbelow]
  · cases q with
    | nil => exact .inr ⟨[], (Option.some.inj hu).symm⟩
    | cons name rest =>
      rw [hbelow] at hu
      cases hu

theorem Laid.passable_iff (h : Laid files folders t) (q : List String) :
    Passable (treeAt q t) ↔ ∀ content, (q, content) ∉ files := by
  constructor
  · intro hp content hmem
    rw [(h.file q content).mpr hmem] at hp
    exact hp
  · intro hnone
    cases hq : treeAt q t with
    | none => trivial
    | some u =>
      rcases h.only q u hq with ⟨content, rfl⟩ | ⟨entries, rfl⟩
      · exact absurd ((h.file q content).mp hq) (hnone content)
      · trivial

/-- No file is in the way. -/
theorem Laid.way_iff (h : Laid files folders t) :
    (∀ q, q <+: path → q ≠ path → Passable (treeAt q t)) ↔
      ∀ f ∈ files, f.1 <+: path → f.1 = path := by
  constructor
  · intro hway f hf hbegins
    by_contra hne
    exact (h.passable_iff f.1).mp (hway f.1 hbegins hne) f.2 hf
  · intro hfiles q hq hne
    exact (h.passable_iff q).mpr fun content hmem => hne (hfiles (q, content) hmem hq)

theorem Laid.free_iff (h : Laid files folders t) : treeAt path t = none ↔
    (∀ f ∈ files, ¬ path <+: f.1) ∧ ∀ d ∈ folders, ¬ path <+: d := by
  constructor
  · intro hnone
    have hfile : ∀ content, (path, content) ∉ files := by
      intro content hmem
      rw [(h.file path content).mpr hmem] at hnone
      cases hnone
    have hfolder : ¬ ((∃ f ∈ files, path <+: f.1 ∧ path ≠ f.1) ∨ ∃ d ∈ folders, path <+: d) := by
      rw [← h.folder]
      rintro ⟨entries, hentries⟩
      rw [hnone] at hentries
      cases hentries
    refine ⟨fun f hf hbegins => ?_, fun d hd hbegins => hfolder (.inr ⟨d, hd, hbegins⟩)⟩
    by_cases heq : path = f.1
    · exact hfile f.2 (heq ▸ hf)
    · exact hfolder (.inl ⟨f, hf, hbegins, heq⟩)
  · rintro ⟨hfiles, hfolders⟩
    cases hq : treeAt path t with
    | none => rfl
    | some u =>
      rcases h.only path u hq with ⟨content, rfl⟩ | ⟨entries, rfl⟩
      · exact absurd List.prefix_rfl (hfiles _ ((h.file path content).mp hq))
      · rcases (h.folder path).mp ⟨entries, hq⟩ with ⟨f, hf, hbegins, -⟩ | ⟨d, hd, hbegins⟩
        · exact absurd hbegins (hfiles f hf)
        · exact absurd hbegins (hfolders d hd)

/-- A file can be created where no file and no folder is in the way. -/
theorem Laid.newFile_isSome_iff (h : Laid files folders t) (content : Content) :
    (lay (newFile content) path t).isSome = true ↔
      (∀ f ∈ files, Apart f.1 path) ∧ ∀ d ∈ folders, ¬ path <+: d := by
  have hleaf : (newFile content (treeAt path t)).isSome = true ↔ treeAt path t = none := by
    cases treeAt path t <;> simp [newFile]
  rw [lay_isSome_iff, hleaf, h.way_iff, h.free_iff]
  constructor
  · rintro ⟨hway, hfiles, hfolders⟩
    refine ⟨fun f hf => ⟨fun hbegins => ?_, hfiles f hf⟩, hfolders⟩
    exact hfiles f hf ((hway f hf hbegins).symm ▸ List.prefix_rfl)
  · rintro ⟨hfiles, hfolders⟩
    exact ⟨fun f hf hbegins => absurd hbegins (hfiles f hf).1, fun f hf => (hfiles f hf).2, hfolders⟩

/-- Where a path lies with respect to another. -/
theorem path_cases (q path : List String) : q = path ∨ (q <+: path ∧ q ≠ path) ∨
    (∃ rest, rest ≠ [] ∧ q = path ++ rest) ∨ Apart q path := by
  by_cases hq : q <+: path
  · by_cases hne : q = path
    · exact .inl hne
    · exact .inr (.inl ⟨hq, hne⟩)
  · by_cases hpath : path <+: q
    · obtain ⟨rest, rfl⟩ := hpath
      refine .inr (.inr (.inl ⟨rest, ?_, rfl⟩))
      rintro rfl
      exact hq ((List.append_nil path).symm ▸ List.prefix_rfl)
    · exact .inr (.inr (.inr ⟨hq, hpath⟩))

theorem Laid.newFile {content : Content} (h : Laid files folders t)
    (ht : lay (FileTree.newFile content) path t = some t') :
    Laid ((path, content) :: files) folders (some t') := by
  obtain ⟨hapart, hfolders⟩ := (h.newFile_isSome_iff content).mp (Option.isSome_of_mem ht)
  have hnone : treeAt path t = none :=
    h.free_iff.mpr ⟨fun f hf => (hapart f hf).2, hfolders⟩
  obtain ⟨u, hleaf, hu⟩ := treeAt_lay ht
  rw [hnone] at hleaf
  obtain rfl := Option.some.inj hleaf
  have hbelow : ∀ rest, rest ≠ [] → treeAt (path ++ rest) (some t') = none := by
    intro rest hrest
    rw [treeAt_append, hu, treeAt_file hrest]
  have hnew : ∀ q, q <+: path → ∀ c, (q, c) ∉ files := fun q hq c hmem => (hapart _ hmem).1 hq
  refine ⟨fun q c => ?_, fun q => ?_, fun q u hq => ?_⟩
  · rw [List.mem_cons, Prod.mk.injEq]
    rcases path_cases q path with rfl | ⟨hq, hne⟩ | ⟨rest, hrest, rfl⟩ | hq
    · rw [hu]
      have hnot := hnew q List.prefix_rfl c
      simp [hnot, eq_comm]
    · obtain ⟨entries, hentries⟩ := (treeAt_lay_above ht hq hne).2
      rw [hentries]
      simp [hne, hnew q hq c]
    · rw [hbelow rest hrest]
      have hnot : (path ++ rest, c) ∉ files := fun hmem => (hapart _ hmem).2 (List.prefix_append _ _)
      simp [hrest, hnot]
    · rw [treeAt_lay_other ht hq.1 hq.2, h.file]
      have hne : q ≠ path := fun heq => hq.1 (heq ▸ List.prefix_rfl)
      simp [hne]
  · simp only [List.mem_cons, exists_eq_or_imp]
    rcases path_cases q path with rfl | ⟨hq, hne⟩ | ⟨rest, hrest, rfl⟩ | hq
    · rw [hu]
      have hnot : ∀ f ∈ files, ¬ q <+: f.1 := fun f hf => (hapart f hf).2
      constructor
      · rintro ⟨entries, hentries⟩
        cases hentries
      · rintro ((⟨-, hne⟩ | ⟨f, hf, hq, -⟩) | ⟨d, hd, hq⟩)
        · exact absurd rfl hne
        · exact absurd hq (hnot f hf)
        · exact absurd hq (hfolders d hd)
    · exact ⟨fun _ => .inl (.inl ⟨hq, hne⟩), fun _ => (treeAt_lay_above ht hq hne).2⟩
    · rw [hbelow rest hrest]
      constructor
      · rintro ⟨entries, hentries⟩
        cases hentries
      · rintro ((⟨hq, hne⟩ | ⟨f, hf, hq, -⟩) | ⟨d, hd, hq⟩)
        · exact absurd (List.IsPrefix.eq_of_length_le hq (by simp)) hne
        · exact absurd ((List.prefix_append path rest).trans hq) (hapart f hf).2
        · exact absurd ((List.prefix_append path rest).trans hq) (hfolders d hd)
    · rw [treeAt_lay_other ht hq.1 hq.2, h.folder]
      simp [hq.1]
  · rcases path_cases q path with rfl | ⟨hbegins, hne⟩ | ⟨rest, hrest, rfl⟩ | hother
    · exact .inl ⟨content, Option.some.inj (hq.symm.trans hu)⟩
    · obtain ⟨entries, hentries⟩ := (treeAt_lay_above ht hbegins hne).2
      exact .inr ⟨entries, Option.some.inj (hq.symm.trans hentries)⟩
    · rw [hbelow rest hrest] at hq
      cases hq
    · rw [treeAt_lay_other ht hother.1 hother.2] at hq
      exact h.only q u hq

/-- A folder can be created where no file is on the way. -/
theorem Laid.newFolder_isSome_iff (h : Laid files folders t) :
    (lay newFolder path t).isSome = true ↔ ∀ f ∈ files, ¬ f.1 <+: path := by
  have hleaf : (newFolder (treeAt path t)).isSome = true ↔ Passable (treeAt path t) := by
    cases treeAt path t with
    | none => simp [newFolder, Passable]
    | some u => cases u <;> simp [newFolder, Passable]
  rw [lay_isSome_iff, hleaf, h.way_iff, h.passable_iff]
  constructor
  · rintro ⟨hway, hnone⟩ f hf hbegins
    exact hnone f.2 (hway f hf hbegins ▸ hf)
  · intro hfiles
    exact ⟨fun f hf hbegins => absurd hbegins (hfiles f hf),
      fun content hmem => hfiles _ hmem List.prefix_rfl⟩

theorem Laid.newFolder (h : Laid files folders t) (ht : lay FileTree.newFolder path t = some t') :
    Laid files (path :: folders) (some t') := by
  have hfiles := h.newFolder_isSome_iff.mp (Option.isSome_of_mem ht)
  have hnew : ∀ q, q <+: path → ∀ c, (q, c) ∉ files := fun q hq c hmem => hfiles _ hmem hq
  obtain ⟨u, hleaf, hu⟩ := treeAt_lay ht
  have hfolder : ∃ entries, treeAt path (some t') = some (.folder entries) := by
    rw [hu]
    cases hp : treeAt path t with
    | none =>
      rw [hp] at hleaf
      exact ⟨[], hleaf.symm⟩
    | some v =>
      rw [hp] at hleaf
      cases v with
      | folder entries => exact ⟨entries, hleaf.symm⟩
      | _ => cases hleaf
  have hbelow : ∀ rest, rest ≠ [] → treeAt (path ++ rest) (some t') = treeAt (path ++ rest) t := by
    intro rest hrest
    rw [treeAt_append, treeAt_append, hu]
    cases hp : treeAt path t with
    | none =>
      rw [hp] at hleaf
      obtain rfl := Option.some.inj hleaf
      rw [treeAt_none]
      cases rest with
      | nil => exact absurd rfl hrest
      | cons name rest => rw [treeAt_cons_folder, List.lookup_nil, treeAt_none]
    | some v =>
      rw [hp] at hleaf
      cases v with
      | folder entries => rw [← Option.some.inj hleaf]
      | _ => cases hleaf
  -- a folder at the path or on the way, and elsewhere what was there
  have hcases : ∀ q, (q <+: path ∧ ∃ entries, treeAt q (some t') = some (.folder entries)) ∨
      ¬ q <+: path ∧ treeAt q (some t') = treeAt q t := by
    intro q
    rcases path_cases q path with rfl | ⟨hq, hne⟩ | ⟨rest, hrest, rfl⟩ | hq
    · exact .inl ⟨List.prefix_rfl, hfolder⟩
    · exact .inl ⟨hq, (treeAt_lay_above ht hq hne).2⟩
    · refine .inr ⟨fun hq => hrest ?_, hbelow rest hrest⟩
      exact List.append_right_eq_self.mp (List.IsPrefix.eq_of_length_le hq (by simp))
    · exact .inr ⟨hq.1, treeAt_lay_other ht hq.1 hq.2⟩
  refine ⟨fun q c => ?_, fun q => ?_, fun q v hq => ?_⟩
  · rcases hcases q with ⟨hq, entries, hentries⟩ | ⟨-, heq⟩
    · rw [hentries]
      simp [hnew q hq c]
    · rw [heq, h.file]
  · simp only [List.mem_cons, exists_eq_or_imp]
    rcases hcases q with ⟨hq, hentries⟩ | ⟨hq, heq⟩
    · exact ⟨fun _ => .inr (.inl hq), fun _ => hentries⟩
    · rw [heq, h.folder]
      simp [hq]
  · rcases hcases q with ⟨-, entries, hentries⟩ | ⟨-, heq⟩
    · exact .inr ⟨entries, Option.some.inj (hq.symm.trans hentries)⟩
    · exact h.only q v (heq ▸ hq)

end Laid

end FileTree
