import Mathlib.Data.List.Basic

/-!
# File trees

Files, folders and links as they stand in a place, what a path names there, and what is changed by
a write. A path follows the links on its way; a write goes through folders only.
-/

namespace FileTree

set_option autoImplicit false

inductive DirTree (Content : Type) where
  | file (content : Content)
  | folder (entries : List (String × DirTree Content))
  | link (target : DirTree Content)
  | danglingLink
  | special

inductive Kind where
  | file
  | folder
  | link
  | special
  deriving DecidableEq

variable {Content : Type}

namespace DirTree

/-- What is found without following a link. -/
def kind : DirTree Content → Kind
  | file _ => .file
  | folder _ => .folder
  | link _ => .link
  | danglingLink => .link
  | special => .special

/-- What a link leads to; only a dangling one is left. -/
def followed : DirTree Content → DirTree Content
  | link target => target.followed
  | t => t

def Dangling (t : DirTree Content) : Prop := t.followed = danglingLink

instance (t : DirTree Content) : Decidable t.Dangling :=
  match h : t.followed with
  | danglingLink => isTrue h
  | file _ => isFalse fun h' => by cases h.symm.trans h'
  | folder _ => isFalse fun h' => by cases h.symm.trans h'
  | link _ => isFalse fun h' => by cases h.symm.trans h'
  | special => isFalse fun h' => by cases h.symm.trans h'

@[simp] theorem followed_file (content : Content) : (file content).followed = file content := by
  simp [followed]

@[simp] theorem followed_folder (entries : List (String × DirTree Content)) :
    (folder entries).followed = folder entries := by
  simp [followed]

/-- What is read as a folder. -/
def listed (t : DirTree Content) : Option (List (String × DirTree Content)) :=
  match t.followed with
  | folder entries => some entries
  | _ => none

/-- What is read as a file. -/
def contents (t : DirTree Content) : Option Content :=
  match t.followed with
  | file content => some content
  | _ => none

theorem Dangling.kind {t : DirTree Content} (h : t.Dangling) : t.kind = .link := by
  cases t with
  | file _ => simp [Dangling] at h
  | folder _ => simp [Dangling] at h
  | special => simp [Dangling, followed] at h
  | _ => rfl

@[simp] theorem contents_file (content : Content) : (file content).contents = some content := by
  simp [contents]

@[simp] theorem listed_folder (entries : List (String × DirTree Content)) :
    (folder entries).listed = some entries := by
  simp [listed]

/-- Whether a rename puts the tree in the place of another: a folder only in that of an empty one. -/
def replaces (t : DirTree Content) : Option (DirTree Content) → Bool
  | none => true
  | some (folder []) => t.kind = .folder
  | some (folder _) => false
  | some _ => t.kind ≠ .folder

mutual
/-- A folder holds a name once. -/
def Distinct : DirTree Content → Prop
  | folder entries => DistinctEntries entries
  | link target => target.Distinct
  | _ => True
def DistinctEntries : List (String × DirTree Content) → Prop
  | [] => True
  | (name, t) :: rest => rest.lookup name = none ∧ t.Distinct ∧ DistinctEntries rest
end

end DirTree

/-- What a path names. -/
def treeAt : List String → Option (DirTree Content) → Option (DirTree Content)
  | [], t => t
  | _ :: _, none => none
  | name :: path, some t =>
    match t.listed with
    | some entries => treeAt path (entries.lookup name)
    | none => none

/-- Puts a tree under a name, in place of what stood there. -/
def setEntry (name : String) (t : DirTree Content) :
    List (String × DirTree Content) → List (String × DirTree Content)
  | [] => [(name, t)]
  | (other, t') :: rest => if name = other then (other, t) :: rest else (other, t') :: setEntry name t rest

/-- Puts a tree at a path whose folders are there. -/
def writeAt (new : DirTree Content) : List String → Option (DirTree Content) → Option (DirTree Content)
  | [], _ => some new
  | name :: path, some (.folder entries) =>
    (writeAt new path (entries.lookup name)).map fun t => .folder (setEntry name t entries)
  | _ :: _, _ => none

theorem lookup_cons_ite (name other : String) (t : DirTree Content)
    (rest : List (String × DirTree Content)) :
    ((other, t) :: rest).lookup name = if name = other then some t else rest.lookup name := by
  by_cases h : name = other
  · rw [if_pos h, h, List.lookup_cons_self]
  · rw [if_neg h, List.lookup_cons, beq_eq_false_iff_ne.mpr h]

theorem lookup_setEntry (name other : String) (t : DirTree Content)
    (entries : List (String × DirTree Content)) :
    (setEntry name t entries).lookup other =
      if other = name then some t else entries.lookup other := by
  induction entries with
  | nil => simp only [setEntry, lookup_cons_ite]
  | cons entry rest ih =>
    obtain ⟨name', t'⟩ := entry
    by_cases hn : name = name'
    · subst hn
      rw [setEntry, if_pos rfl, lookup_cons_ite, lookup_cons_ite]
      split <;> rfl
    · rw [setEntry, if_neg hn, lookup_cons_ite, lookup_cons_ite, ih]
      split
      · rename_i ho
        rw [if_neg (fun he => hn (he.symm.trans ho))]
      · rfl

@[simp] theorem treeAt_none (path : List String) : treeAt path (none : Option (DirTree Content)) = none := by
  cases path <;> rfl

@[simp] theorem treeAt_cons_folder (name : String) (path : List String)
    (entries : List (String × DirTree Content)) :
    treeAt (name :: path) (some (.folder entries)) = treeAt path (entries.lookup name) := by
  simp only [treeAt, DirTree.listed_folder]

/-- A write below a name goes through a folder. -/
theorem writeAt_cons {new t' : DirTree Content} {name : String} {path : List String}
    {t : Option (DirTree Content)} (h : writeAt new (name :: path) t = some t') :
    ∃ entries sub, t = some (.folder entries) ∧ writeAt new path (entries.lookup name) = some sub ∧
      t' = .folder (setEntry name sub entries) := by
  cases t with
  | none => cases h
  | some t =>
    cases t with
    | folder entries =>
      obtain ⟨sub, hsub, ht'⟩ := Option.map_eq_some_iff.mp h
      exact ⟨entries, sub, rfl, hsub, ht'.symm⟩
    | _ => cases h

/-- What is written is found. -/
theorem treeAt_writeAt {new t' : DirTree Content} {path : List String} {t : Option (DirTree Content)}
    (h : writeAt new path t = some t') : treeAt path (some t') = some new := by
  induction path generalizing t t' with
  | nil =>
    cases h
    rfl
  | cons name path ih =>
    obtain ⟨entries, sub, rfl, hsub, rfl⟩ := writeAt_cons h
    rw [treeAt_cons_folder, lookup_setEntry, if_pos rfl]
    exact ih hsub

/-- A write where nothing stood leaves every file. -/
theorem treeAt_writeAt_file {new t' : DirTree Content} {content : Content} {path other : List String}
    {t : Option (DirTree Content)} (h : writeAt new path t = some t') (hfree : treeAt path t = none)
    (ho : treeAt other t = some (.file content)) : treeAt other (some t') = some (.file content) := by
  induction path generalizing t t' other with
  | nil =>
    cases hfree
    rw [treeAt_none] at ho
    cases ho
  | cons name path ih =>
    obtain ⟨entries, sub, rfl, hsub, rfl⟩ := writeAt_cons h
    rw [treeAt_cons_folder] at hfree
    cases other with
    | nil => cases ho
    | cons name' other =>
      rw [treeAt_cons_folder] at ho
      rw [treeAt_cons_folder, lookup_setEntry]
      split
      · rename_i hname
        subst hname
        exact ih hsub hfree ho
      · exact ho

end FileTree
