import AuruPm.Lib.LexicalPath
import AuruPm.Lib.NewFiles
import Mathlib.Data.List.Basic

/-!
# The folder of a restore

A restore creates its files one after another in a folder that held nothing. The host is a Unix
one; which paths below the folder it can create, and what it says where it creates nothing, is left
open.
-/

namespace AuruPm

set_option autoImplicit false

open FileTree LexicalPath

namespace Restore

/-- A name without separators, as `safe_project_file_name` makes it. -/
structure FileName where
  name : String
  ordinary : Ordinary name

/-- The paths below a folder that can be created there. -/
structure Host where
  creates : List String → Bool
  refusal : List String → String

/-- The names of a path below a folder. -/
def names (path : Path) : List String :=
  path.filterMap fun
    | .normal name => some name
    | _ => none

theorem names_map (parts : List String) : names (parts.map LexicalPath.Component.normal) = parts := by
  induction parts with
  | nil => rfl
  | cons part parts ih => exact congrArg (part :: ·) ih

section Create
variable {Bytes : Type}

/-- `create_dir_all` of the destination. -/
def createDestination (host : Host) : Option (DirTree Bytes) → Except String (DirTree Bytes)
  | none => if host.creates [] then .ok (.folder []) else .error (host.refusal [])
  | some t =>
    match t.listed with
    | none => .error (host.refusal [])
    | some entries => .ok (.folder entries)

/-- Creates what is to stand at a path, with the folders on its way. -/
def create (host : Host) (leaf : Option (DirTree Bytes) → Option (DirTree Bytes))
    (path : List String) (t : DirTree Bytes) : Except String (DirTree Bytes) :=
  match lay leaf path (some t) with
  | none => .error (host.refusal path)
  | some t => if host.creates path then .ok t else .error (host.refusal path)

variable {host : Host} {files : List (List String × Bytes)} {folders : List (List String)}
variable {t t' : DirTree Bytes} {path : List String} {content : Bytes}

theorem create_ok_iff {leaf : Option (DirTree Bytes) → Option (DirTree Bytes)} :
    create host leaf path t = .ok t' ↔ lay leaf path (some t) = some t' ∧ host.creates path = true := by
  unfold create
  cases lay leaf path (some t) with
  | none => simp
  | some u =>
    by_cases hhost : host.creates path = true
    · simp [hhost]
    · simp [hhost]

theorem exists_create_iff {leaf : Option (DirTree Bytes) → Option (DirTree Bytes)} :
    (∃ t', create host leaf path t = .ok t') ↔
      (lay leaf path (some t)).isSome = true ∧ host.creates path = true := by
  simp only [create_ok_iff, exists_and_right, Option.isSome_iff_exists]

/-- A file is created where neither it nor another file is in the way. -/
theorem exists_newFile_iff (h : Laid files [[]] (some t)) (hne : path ≠ []) :
    (∃ t', create host (newFile content) path t = .ok t') ↔
      host.creates path = true ∧ ∀ f ∈ files, FileTree.Apart f.1 path := by
  rw [exists_create_iff, h.newFile_isSome_iff]
  simp [hne, and_comm]

theorem laid_created (h : Laid files folders (some t))
    (ht : create host (newFile content) path t = .ok t') :
    Laid ((path, content) :: files) folders (some t') :=
  h.newFile (create_ok_iff.mp ht).1

/-! Several files. -/

/-- The new files can be created beside these, one after another. -/
structure Creatable (host : Host) (files new : List (List String × Bytes)) : Prop where
  creates : ∀ f ∈ new, host.creates f.1 = true
  apart : new.Pairwise fun f g => FileTree.Apart f.1 g.1
  beside : ∀ f ∈ files, ∀ g ∈ new, FileTree.Apart f.1 g.1

theorem creatable_nil : Creatable host files [] :=
  ⟨by simp, .nil, by simp⟩

theorem creatable_cons_iff {file : List String × Bytes} {new : List (List String × Bytes)} :
    Creatable host files (file :: new) ↔
      (host.creates file.1 = true ∧ ∀ f ∈ files, FileTree.Apart f.1 file.1) ∧
        Creatable host (file :: files) new := by
  constructor
  · intro h
    obtain ⟨hfirst, hrest⟩ := List.pairwise_cons.mp h.apart
    refine ⟨⟨h.creates file List.mem_cons_self, fun f hf => h.beside f hf file List.mem_cons_self⟩,
      fun f hf => h.creates f (List.mem_cons_of_mem _ hf), hrest, ?_⟩
    exact List.forall_mem_cons.mpr
      ⟨hfirst, fun f hf g hg => h.beside f hf g (List.mem_cons_of_mem _ hg)⟩
  · rintro ⟨⟨hcreates, hbeside⟩, h⟩
    obtain ⟨hfirst, hrest⟩ := List.forall_mem_cons.mp h.beside
    exact ⟨List.forall_mem_cons.mpr ⟨hcreates, h.creates⟩, List.pairwise_cons.mpr ⟨hfirst, h.apart⟩,
      fun f hf => List.forall_mem_cons.mpr ⟨hbeside f hf, hrest f hf⟩⟩

/-- The last of them is created beside all others. -/
theorem creatable_concat_iff {file : List String × Bytes} {new : List (List String × Bytes)} :
    Creatable host files (new ++ [file]) ↔ Creatable host files new ∧ host.creates file.1 = true ∧
      ∀ f ∈ new.reverse ++ files, FileTree.Apart f.1 file.1 := by
  constructor
  · intro h
    obtain ⟨hnew, -, hlast⟩ := List.pairwise_append.mp h.apart
    refine ⟨⟨fun f hf => h.creates f (List.mem_append_left _ hf), hnew,
      fun f hf g hg => h.beside f hf g (List.mem_append_left _ hg)⟩,
      h.creates file (List.mem_append_right _ List.mem_cons_self), fun f hf => ?_⟩
    rcases List.mem_append.mp hf with hf | hf
    · exact hlast f (List.mem_reverse.mp hf) file List.mem_cons_self
    · exact h.beside f hf file (List.mem_append_right _ List.mem_cons_self)
  · rintro ⟨h, hcreates, hlast⟩
    obtain ⟨hnew, hfiles⟩ := List.forall_mem_append.mp hlast
    refine ⟨List.forall_mem_append.mpr ⟨h.creates, List.forall_mem_singleton.mpr hcreates⟩,
      List.pairwise_append.mpr ⟨h.apart, List.pairwise_singleton _ _, fun f hf =>
        List.forall_mem_singleton.mpr (hnew f (List.mem_reverse.mpr hf))⟩, fun f hf =>
      List.forall_mem_append.mpr ⟨h.beside f hf, List.forall_mem_singleton.mpr (hfiles f hf)⟩⟩

end Create

end Restore

end AuruPm
