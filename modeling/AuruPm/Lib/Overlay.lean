import AuruPm.Lib.FileTree

/-!
# Laying one tree under another

What a tree lacks is taken from a second one. Where both have a folder under a name the folders are
merged; where either has something else, the first tree stays as it is, and what the second one has
there is left out.
-/

namespace FileTree

set_option autoImplicit false

variable {Content : Type}

/-- Puts what is there, if anything, under a name. -/
def putEntry (name : String) (entries : List (String × DirTree Content)) :
    Option (DirTree Content) → List (String × DirTree Content)
  | some t => setEntry name t entries
  | none => entries

mutual
/-- What stands in a place once a tree is laid under what is there. -/
def overlayTree : DirTree Content → Option (DirTree Content) → Option (DirTree Content)
  | .folder lower, none => some (.folder (overlayEntries lower []))
  | .folder lower, some (.folder upper) => some (.folder (overlayEntries lower upper))
  | .file content, none => some (.file content)
  | _, there => there
def overlayEntries : List (String × DirTree Content) → List (String × DirTree Content) →
    List (String × DirTree Content)
  | [], upper => upper
  | (name, t) :: rest, upper =>
    overlayEntries rest (putEntry name upper (overlayTree t (upper.lookup name)))
end

theorem overlayTree_link (target : DirTree Content) (there : Option (DirTree Content)) :
    overlayTree (.link target) there = there := by
  simp [overlayTree]

theorem overlayTree_some_of_not_folder {t x : DirTree Content} (h : x.kind ≠ .folder) :
    overlayTree t (some x) = some x := by
  cases t with
  | folder lower =>
    cases x with
    | folder upper => exact absurd rfl h
    | _ => simp [overlayTree]
  | _ => simp [overlayTree]

theorem eq_none_of_overlayTree {t : DirTree Content} {there : Option (DirTree Content)}
    (h : overlayTree t there = none) : there = none := by
  cases there with
  | none => rfl
  | some x => cases t <;> cases x <;> simp [overlayTree] at h

namespace DirTree

mutual
/-- A tree without links. -/
def Linkless : DirTree Content → Prop
  | folder entries => LinklessEntries entries
  | link _ => False
  | danglingLink => False
  | _ => True
def LinklessEntries : List (String × DirTree Content) → Prop
  | [] => True
  | (_, t) :: rest => t.Linkless ∧ LinklessEntries rest
end

theorem LinklessEntries.lookup {entries : List (String × DirTree Content)} {name : String}
    {t : DirTree Content} (h : LinklessEntries entries) (ht : entries.lookup name = some t) :
    t.Linkless := by
  induction entries with
  | nil => cases ht
  | cons entry rest ih =>
    obtain ⟨other, t'⟩ := entry
    rw [lookup_cons_ite] at ht
    split at ht
    · cases ht
      exact h.1
    · exact ih h.2 ht

theorem LinklessEntries.setEntry {entries : List (String × DirTree Content)} (name : String)
    {t : DirTree Content} (h : LinklessEntries entries) (ht : t.Linkless) :
    LinklessEntries (setEntry name t entries) := by
  induction entries with
  | nil => exact ⟨ht, trivial⟩
  | cons entry rest ih =>
    obtain ⟨other, t'⟩ := entry
    rw [FileTree.setEntry]
    split
    · exact ⟨ht, h.2⟩
    · exact ⟨h.1, ih h.2⟩

theorem DistinctEntries.lookup {entries : List (String × DirTree Content)} {name : String}
    {t : DirTree Content} (h : DistinctEntries entries) (ht : entries.lookup name = some t) :
    t.Distinct := by
  induction entries with
  | nil => cases ht
  | cons entry rest ih =>
    obtain ⟨other, t'⟩ := entry
    rw [lookup_cons_ite] at ht
    split at ht
    · cases ht
      exact h.2.1
    · exact ih h.2.2 ht

theorem DistinctEntries.lookup_of_mem {entries : List (String × DirTree Content)} {name : String}
    {t : DirTree Content} (h : DistinctEntries entries) (ht : (name, t) ∈ entries) :
    entries.lookup name = some t := by
  induction entries with
  | nil => cases ht
  | cons entry rest ih =>
    obtain ⟨other, t'⟩ := entry
    rw [lookup_cons_ite]
    rcases List.mem_cons.mp ht with heq | ht
    · cases heq
      rw [if_pos rfl]
    · have hrest := ih h.2.2 ht
      split
      · rename_i hname
        subst hname
        rw [h.1] at hrest
        cases hrest
      · exact hrest

theorem Linkless.not_dangling {t : DirTree Content} (h : t.Linkless) : ¬ t.Dangling := by
  intro hd
  cases t with
  | link target => exact h
  | danglingLink => exact h
  | file content => simp [Dangling] at hd
  | folder entries => simp [Dangling] at hd
  | special => simp [Dangling, followed] at hd

end DirTree

/-! Entries. -/

theorem setEntry_lookup {name : String} {t : DirTree Content} {entries : List (String × DirTree Content)}
    (h : entries.lookup name = some t) : setEntry name t entries = entries := by
  induction entries with
  | nil => cases h
  | cons entry rest ih =>
    obtain ⟨other, t'⟩ := entry
    rw [lookup_cons_ite] at h
    rw [setEntry]
    split
    · rename_i hname
      rw [if_pos hname] at h
      cases h
      rfl
    · rename_i hname
      rw [if_neg hname] at h
      rw [ih h]

theorem setEntry_setEntry (name : String) (t t' : DirTree Content)
    (entries : List (String × DirTree Content)) :
    setEntry name t (setEntry name t' entries) = setEntry name t entries := by
  induction entries with
  | nil => simp [setEntry]
  | cons entry rest ih =>
    obtain ⟨other, u⟩ := entry
    by_cases hname : name = other
    · simp only [setEntry, if_pos hname]
    · simp only [setEntry, if_neg hname, ih]

/-! Writes. -/

/-- The last of two writes to a path counts. -/
theorem writeAt_writeAt {a b t₁ : DirTree Content} {path : List String} {t : Option (DirTree Content)}
    (h : writeAt a path t = some t₁) : writeAt b path (some t₁) = writeAt b path t := by
  induction path generalizing t t₁ with
  | nil => rfl
  | cons name path ih =>
    obtain ⟨entries, sub, rfl, hsub, rfl⟩ := writeAt_cons h
    simp only [writeAt, lookup_setEntry, if_pos, ih hsub, setEntry_setEntry]

/-- A folder that is reached through folders. -/
def Stands (entries : List (String × DirTree Content)) (path : List String) (t : DirTree Content) :
    Prop :=
  writeAt (.folder entries) path (some t) = some t

theorem Stands.found {entries : List (String × DirTree Content)} {path : List String}
    {t : DirTree Content} (h : Stands entries path t) : treeAt path (some t) = some (.folder entries) :=
  treeAt_writeAt h

theorem Stands.of_write {entries : List (String × DirTree Content)} {path : List String}
    {t : Option (DirTree Content)} {t' : DirTree Content}
    (h : writeAt (.folder entries) path t = some t') :
    Stands entries path t' :=
  (writeAt_writeAt h).trans h

/-- A write under a name in a folder is one of the folder. -/
theorem Stands.write {entries : List (String × DirTree Content)} {path : List String}
    {t : DirTree Content} (h : Stands entries path t) (name : String) (new : DirTree Content) :
    writeAt new (path ++ [name]) (some t) =
      writeAt (.folder (setEntry name new entries)) path (some t) := by
  induction path generalizing t with
  | nil =>
    cases Option.some.inj h
    rfl
  | cons first path ih =>
    obtain ⟨outer, sub, heq, hsub, ht⟩ := writeAt_cons h
    cases Option.some.inj heq
    have hlookup : outer.lookup first = some sub :=
      (congrArg (List.lookup first) (DirTree.folder.inj ht)).trans
        ((lookup_setEntry first first sub outer).trans (if_pos rfl))
    rw [hlookup] at hsub
    simp only [List.cons_append, writeAt, hlookup, ih hsub]

theorem treeAt_snoc (path : List String) (name : String) (t : Option (DirTree Content)) :
    treeAt (path ++ [name]) t = treeAt [name] (treeAt path t) := by
  induction path generalizing t with
  | nil => rfl
  | cons first path ih =>
    cases t with
    | none => simp
    | some t =>
      simp only [List.cons_append, treeAt]
      split
      · exact ih _
      · simp

theorem Stands.lookup {entries : List (String × DirTree Content)} {path : List String}
    {t : DirTree Content} (h : Stands entries path t) (name : String) :
    treeAt (path ++ [name]) (some t) = entries.lookup name := by
  rw [treeAt_snoc, h.found, treeAt_cons_folder, treeAt]

theorem Stands.below {entries inner : List (String × DirTree Content)} {path : List String}
    {t : DirTree Content} (h : Stands entries path t) {name : String}
    (hname : entries.lookup name = some (.folder inner)) : Stands inner (path ++ [name]) t := by
  rw [Stands, h.write, setEntry_lookup hname]
  exact h

/-! Links. -/

mutual
/-- The second tree brings no links. -/
theorem overlayTree_linkless (t : DirTree Content) (there : Option (DirTree Content))
    (h : ∀ x ∈ there, x.Linkless) : ∀ x ∈ overlayTree t there, x.Linkless := by
  intro x hx
  cases t with
  | folder lower =>
    cases there with
    | none =>
      cases hx
      exact overlayEntries_linkless lower [] trivial
    | some y =>
      cases y with
      | folder upper =>
        cases hx
        exact overlayEntries_linkless lower upper (h _ rfl)
      | _ => exact h x hx
  | file content =>
    cases there with
    | none =>
      cases hx
      trivial
    | some y => exact h x hx
  | link target => exact h x (by rwa [overlayTree_link] at hx)
  | danglingLink => exact h x hx
  | special => exact h x hx
theorem overlayEntries_linkless (lower upper : List (String × DirTree Content))
    (h : DirTree.LinklessEntries upper) : DirTree.LinklessEntries (overlayEntries lower upper) := by
  cases lower with
  | nil => exact h
  | cons entry rest =>
    obtain ⟨name, t⟩ := entry
    rw [overlayEntries]
    apply overlayEntries_linkless rest
    cases hput : overlayTree t (upper.lookup name) with
    | none => exact h
    | some t' =>
      have hthere : ∀ x ∈ upper.lookup name, x.Linkless := fun x hx => h.lookup hx
      exact h.setEntry name (overlayTree_linkless t (upper.lookup name) hthere t' hput)
end

theorem putEntry_linkless {upper : List (String × DirTree Content)} (name : String)
    (t : DirTree Content) (h : DirTree.LinklessEntries upper) :
    DirTree.LinklessEntries (putEntry name upper (overlayTree t (upper.lookup name))) := by
  cases hput : overlayTree t (upper.lookup name) with
  | none => exact h
  | some t' =>
    exact h.setEntry name (overlayTree_linkless t _ (fun x hx => h.lookup hx) t' hput)

/-! Files. -/

theorem lookup_overlayEntries {lower upper : List (String × DirTree Content)}
    (h : DirTree.DistinctEntries lower) (name : String) :
    (overlayEntries lower upper).lookup name =
      match lower.lookup name with
      | some t => overlayTree t (upper.lookup name)
      | none => upper.lookup name := by
  induction lower generalizing upper with
  | nil => simp [overlayEntries]
  | cons entry rest ih =>
    obtain ⟨other, t⟩ := entry
    obtain ⟨hother, -, hrest⟩ := h
    rw [overlayEntries, lookup_cons_ite]
    by_cases hname : name = other
    · subst hname
      rw [if_pos rfl]
      cases hover : overlayTree t (upper.lookup name) with
      | none =>
        simp only [putEntry, ih hrest, hother, hover]
        exact eq_none_of_overlayTree hover
      | some t' => simp only [putEntry, ih hrest, hother, lookup_setEntry, if_pos, hover]
    · rw [if_neg hname]
      cases overlayTree t (upper.lookup other) with
      | none => simp only [putEntry, ih hrest]
      | some t' => simp only [putEntry, ih hrest, lookup_setEntry, if_neg hname]

/-- Nothing stands at the path, and only folders on the way to it. -/
structure Fits (path : List String) (there : Option (DirTree Content)) : Prop where
  free : treeAt path there = none
  way : ∀ before, before <+: path → before ≠ path → ∀ t, treeAt before there = some t →
    t.kind = .folder

theorem fits_none (path : List String) : Fits path (none : Option (DirTree Content)) where
  free := treeAt_none path
  way before _ _ t ht := by
    rw [treeAt_none] at ht
    cases ht

theorem not_fits_nil (t : DirTree Content) : ¬ Fits [] (some t) := fun h => nomatch h.free

theorem not_fits_cons {t : DirTree Content} (h : t.kind ≠ .folder) (name : String)
    (path : List String) : ¬ Fits (name :: path) (some t) :=
  fun hfits => h (hfits.way [] List.nil_prefix (List.cons_ne_nil name path).symm t rfl)

theorem fits_cons_iff {upper : List (String × DirTree Content)} {name : String} {path : List String} :
    Fits (name :: path) (some (.folder upper)) ↔ Fits path (upper.lookup name) := by
  constructor
  · intro h
    refine ⟨(treeAt_cons_folder name path upper).symm.trans h.free, fun before hbefore hne t ht => ?_⟩
    refine h.way (name :: before) (List.cons_prefix_cons.mpr ⟨rfl, hbefore⟩) ?_ t ?_
    · exact fun heq => hne (List.cons.inj heq).2
    · exact (treeAt_cons_folder name before upper).trans ht
  · intro h
    refine ⟨(treeAt_cons_folder name path upper).trans h.free, fun before hbefore hne t ht => ?_⟩
    cases before with
    | nil =>
      cases Option.some.inj ht
      rfl
    | cons first before =>
      obtain ⟨rfl, hrest⟩ := List.cons_prefix_cons.mp hbefore
      rw [treeAt_cons_folder] at ht
      exact h.way before hrest (fun heq => hne (by rw [heq])) t ht

/-- The files of the first tree stay. -/
theorem overlay_keeps {path : List String} {t : DirTree Content} {there : Option (DirTree Content)}
    {content : Content} (ht : t.Distinct) (h : treeAt path there = some (.file content)) :
    treeAt path (overlayTree t there) = some (.file content) := by
  induction path generalizing t there with
  | nil =>
    cases h
    rw [overlayTree_some_of_not_folder Kind.noConfusion]
    rfl
  | cons name path ih =>
    cases there with
    | none => cases h
    | some x =>
      by_cases hx : x.kind = .folder
      · cases x with
        | folder upper =>
          rw [treeAt_cons_folder] at h
          cases t with
          | folder lower =>
            rw [overlayTree, treeAt_cons_folder, lookup_overlayEntries ht]
            cases hlower : lower.lookup name with
            | none => exact h
            | some t' => exact ih (DirTree.DistinctEntries.lookup ht hlower) h
          | _ => simpa [overlayTree] using h
        | _ => cases hx
      · rw [overlayTree_some_of_not_folder hx]
        exact h

/-- A file of the second tree is there in the end just where it fits. -/
theorem overlay_adds_iff {path : List String} {t : DirTree Content}
    {there : Option (DirTree Content)} {content : Content} (hd : t.Distinct) (hl : t.Linkless)
    (h : treeAt path (some t) = some (.file content))
    (hthere : ∀ other, treeAt path there ≠ some (.file other)) :
    treeAt path (overlayTree t there) = some (.file content) ↔ Fits path there := by
  induction path generalizing t there with
  | nil =>
    cases Option.some.inj h
    cases there with
    | none => exact iff_of_true rfl (fits_none [])
    | some x =>
      refine iff_of_false (fun hx => hthere content ?_) (not_fits_nil x)
      cases x <;> exact hx
  | cons name path ih =>
    cases t with
    | folder lower =>
      rw [treeAt_cons_folder] at h
      cases hlower : lower.lookup name with
      | none =>
        rw [hlower, treeAt_none] at h
        cases h
      | some t' =>
        rw [hlower] at h
        have hd' := DirTree.DistinctEntries.lookup hd hlower
        have hl' := DirTree.LinklessEntries.lookup hl hlower
        cases there with
        | none =>
          rw [overlayTree, treeAt_cons_folder, lookup_overlayEntries hd, hlower]
          refine (ih hd' hl' h fun other hother => ?_).trans
            (iff_of_true (fits_none path) (fits_none (name :: path)))
          rw [List.lookup_nil, treeAt_none] at hother
          cases hother
        | some x =>
          by_cases hx : x.kind = .folder
          · cases x with
            | folder upper =>
              rw [overlayTree, treeAt_cons_folder, lookup_overlayEntries hd, hlower, fits_cons_iff]
              refine ih hd' hl' h fun other hother => hthere other ?_
              rw [treeAt_cons_folder]
              exact hother
            | _ => cases hx
          · rw [overlayTree_some_of_not_folder hx]
            exact iff_of_false (hthere content) (not_fits_cons hx name path)
    | link target => exact hl.elim
    | danglingLink => exact hl.elim
    | file _ => cases h
    | special => cases h

end FileTree
