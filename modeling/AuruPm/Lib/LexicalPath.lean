import Mathlib.Data.List.Basic

/-!
# Paths as text, on two kinds of hosts

A path is the list of its components. On Windows both slashes separate and a text can start
with a drive; joining a path that has a drive replaces the path so far, and one that has a root
replaces it up to its drive. Nothing is asked of a file system.
-/

namespace LexicalPath

set_option autoImplicit false

inductive Grammar where
  | posix
  | windows
  deriving DecidableEq

def Grammar.isSeparator : Grammar → Char → Bool
  | .posix, c => c = '/'
  | .windows, c => c = '/' || c = '\\'

inductive Component where
  | drive (letter : Char)
  | rootDir
  | curDir
  | parentDir
  | normal (name : String)
  deriving DecidableEq

abbrev Path := List Component

/-- Whether a text starts with a drive such as `C:`. -/
def driveQualified : List Char → Bool
  | letter :: ':' :: _ => letter.isAlpha
  | _ => false

def splitDrive : Grammar → List Char → Path × List Char
  | .windows, letter :: ':' :: rest =>
    if letter.isAlpha then ([.drive letter.toUpper], rest) else ([], letter :: ':' :: rest)
  | _, text => ([], text)

/-- A segment that does not start a path. -/
def ofSegment (segment : List Char) : Option Component :=
  if segment = [] ∨ segment = ['.'] then none
  else if segment = ['.', '.'] then some .parentDir
  else some (.normal (String.ofList segment))

def ofSegments : List (List Char) → Path
  | [[]] => []
  | [] :: segments => .rootDir :: segments.filterMap ofSegment
  | ['.'] :: segments => .curDir :: segments.filterMap ofSegment
  | segments => segments.filterMap ofSegment

/-- The components of a text. -/
def components (g : Grammar) (text : String) : Path :=
  let split := splitDrive g text.toList
  split.1 ++ ofSegments (split.2.splitOnP g.isSeparator)

def isDrive : Component → Bool
  | .drive _ => true
  | _ => false

def join (base path : Path) : Path :=
  match path with
  | .drive _ :: _ => path
  | .rootDir :: _ => base.takeWhile isDrive ++ path
  | .curDir :: rest => if base = [] then path else base ++ rest
  | _ => base ++ path

def fileName (path : Path) : Option String :=
  match path.getLast? with
  | some (.normal name) => some name
  | _ => none

def parent (path : Path) : Option Path :=
  match path.getLast? with
  | some (.normal _) => some path.dropLast
  | some .curDir => some path.dropLast
  | some .parentDir => some path.dropLast
  | _ => none

/-- Folds one component in: `..` takes a name back, and stays at a root. -/
def fold (out : Path) : Component → Path
  | .curDir => out
  | .parentDir =>
    match out.getLast? with
    | some (.normal _) => out.dropLast
    | some .rootDir => out
    | _ => out ++ [.parentDir]
  | component => out ++ [component]

def normalize (path : Path) : Path := path.foldl fold []

/-- Some names below the base, when `.` and `..` are folded. -/
def StrictlyBelow (base path : Path) : Prop :=
  ∃ names : List String, names ≠ [] ∧ normalize path = normalize base ++ names.map .normal

/-- A name that no grammar takes apart. -/
def Ordinary (name : String) : Prop :=
  name ∉ ["", ".", ".."] ∧ ∀ c ∈ name.toList, c ≠ '/' ∧ c ≠ '\\'

/-! Joining names. -/

theorem join_normal (base : Path) (name : String) (names : List String) :
    join base ((name :: names).map .normal) = base ++ (name :: names).map .normal := rfl

@[simp] theorem fold_normal (out : Path) (name : String) :
    fold out (.normal name) = out ++ [.normal name] := rfl

theorem normalize_append_normal (path : Path) (names : List String) :
    normalize (path ++ names.map .normal) = normalize path ++ names.map .normal := by
  rw [normalize, List.foldl_append]
  change (names.map Component.normal).foldl fold (normalize path) = _
  generalize normalize path = out
  induction names generalizing out with
  | nil => rw [List.map_nil, List.foldl_nil, List.append_nil]
  | cons name names ih =>
    rw [List.map_cons, List.foldl_cons, ih, fold_normal, List.append_assoc, List.singleton_append]

theorem strictlyBelow_append (base : Path) {names : List String} (h : names ≠ []) :
    StrictlyBelow base (base ++ names.map .normal) :=
  ⟨names, h, normalize_append_normal base names⟩

theorem foldl_drive (letter : Char) (out path : Path) :
    ∃ rest, path.foldl fold (.drive letter :: out) = .drive letter :: rest := by
  induction path generalizing out with
  | nil => exact ⟨out, rfl⟩
  | cons component path ih =>
    rw [List.foldl_cons]
    have hstep : ∃ rest, fold (.drive letter :: out) component = .drive letter :: rest := by
      cases component with
      | curDir => exact ⟨out, rfl⟩
      | parentDir =>
        rw [fold]
        cases out with
        | nil => exact ⟨[.parentDir], rfl⟩
        | cons c out =>
          split
          · exact ⟨(c :: out).dropLast, rfl⟩
          · exact ⟨c :: out, rfl⟩
          · exact ⟨c :: out ++ [.parentDir], rfl⟩
      | drive letter' => exact ⟨out ++ [.drive letter'], rfl⟩
      | rootDir => exact ⟨out ++ [.rootDir], rfl⟩
      | normal name => exact ⟨out ++ [.normal name], rfl⟩
    obtain ⟨rest, hrest⟩ := hstep
    rw [hrest]
    exact ih rest

/-- A path that begins with a drive is not below a root without one. -/
theorem not_strictlyBelow_drive (letter : Char) (path : Path) :
    ¬StrictlyBelow [.rootDir] (.drive letter :: path) := by
  intro ⟨names, _, heq⟩
  obtain ⟨rest, hrest⟩ := foldl_drive letter [] path
  change path.foldl fold [.drive letter] = _ at heq
  rw [hrest] at heq
  cases heq

/-! Reading a name. -/

theorem isSeparator_of_ordinary {g : Grammar} {name : String} (h : Ordinary name) :
    ∀ c ∈ name.toList, g.isSeparator c = false := by
  intro c hc
  obtain ⟨hslash, hback⟩ := h.2 c hc
  cases g <;> simp [Grammar.isSeparator, hslash, hback]

theorem ofSegment_ordinary {name : String} (h : Ordinary name) :
    ofSegment name.toList = some (.normal name) := by
  have hne : ∀ text ∈ ["", ".", ".."], name.toList ≠ text.toList := by
    intro text htext heq
    exact h.1 (String.toList_injective heq ▸ htext)
  rw [ofSegment, if_neg, if_neg, String.ofList_toList]
  · exact hne ".." (by simp)
  · rintro (heq | heq)
    · exact hne "" (by simp) heq
    · exact hne "." (by simp) heq

theorem ofSegments_ordinary {name : String} (h : Ordinary name) :
    ofSegments [name.toList] = [.normal name] := by
  have hsegment := ofSegment_ordinary h
  unfold ofSegments
  split
  · rename_i heq
    simp_all [ofSegment]
  · rename_i heq
    simp_all [ofSegment]
  · rename_i heq
    simp_all [ofSegment]
  · rw [List.filterMap_cons, hsegment, List.filterMap_nil]

theorem splitDrive_eq {g : Grammar} {text : List Char}
    (h : g = .posix ∨ driveQualified text = false) : splitDrive g text = ([], text) := by
  unfold splitDrive
  split
  · rename_i letter rest
    rw [driveQualified] at h
    rcases h with hposix | h
    · cases hposix
    · rw [if_neg (by simp [h])]
  · rfl

/-- An ordinary name is one component, unless it starts with a drive on Windows. -/
theorem components_ordinary {g : Grammar} {name : String} (h : Ordinary name)
    (hdrive : g = .posix ∨ driveQualified name.toList = false) :
    components g name = [.normal name] := by
  rw [components, splitDrive_eq hdrive]
  change [] ++ ofSegments (name.toList.splitOnP g.isSeparator) = _
  rw [List.splitOnP_eq_singleton (isSeparator_of_ordinary h), List.nil_append,
    ofSegments_ordinary h]

theorem components_drive {name : String} (h : driveQualified name.toList = true) :
    ∃ letter rest, components .windows name = .drive letter :: rest := by
  unfold driveQualified at h
  split at h
  · rename_i letter rest heq
    exact ⟨letter.toUpper, _, by rw [components, heq, splitDrive, if_pos h]; rfl⟩
  · cases h

/-- What lies between separators has none. -/
theorem not_separator_of_mem {isSeparator : Char → Bool} {text segment : List Char}
    (h : segment ∈ text.splitOnP isSeparator) : ∀ c ∈ segment, isSeparator c = false := by
  induction text generalizing segment with
  | nil =>
    rw [List.splitOnP_nil, List.mem_singleton] at h
    rw [h]
    exact fun c hc => absurd hc List.not_mem_nil
  | cons c text ih =>
    rw [List.splitOnP_cons_eq_if_modifyHead] at h
    by_cases hc : isSeparator c
    · rw [if_pos hc] at h
      rcases List.mem_cons.mp h with rfl | h
      · exact fun c hc => absurd hc List.not_mem_nil
      · exact ih h
    · rw [if_neg hc] at h
      obtain ⟨first, rest, hsplit⟩ :=
        List.exists_cons_of_ne_nil (List.splitOnP_ne_nil isSeparator text)
      rw [hsplit, List.modifyHead_cons] at h
      rw [hsplit] at ih
      rcases List.mem_cons.mp h with rfl | h
      · intro x hx
        rcases List.mem_cons.mp hx with rfl | hx
        · simpa using hc
        · exact ih List.mem_cons_self x hx
      · exact ih (List.mem_cons_of_mem _ h)

theorem ofSegments_eq_nil {segments : List (List Char)} (h : ofSegments segments = [])
    (hne : segments ≠ []) : segments = [[]] := by
  unfold ofSegments at h
  split at h
  · rfl
  · cases h
  · cases h
  · rename_i hsingle hroot hdot
    obtain ⟨segment, rest, rfl⟩ := List.exists_cons_of_ne_nil hne
    have hnil : segment ≠ [] := fun hnil => by
      cases rest with
      | nil => exact hsingle (by rw [hnil])
      | cons s rest => exact hroot (s :: rest) (by rw [hnil])
    have hcur : segment ≠ ['.'] := fun hcur => hdot rest (by rw [hcur])
    by_cases hup : segment = ['.', '.']
    · simp [ofSegment, hup] at h
    · simp [ofSegment, hnil, hcur, hup] at h

theorem splitOnP_eq_nil {isSeparator : Char → Bool} {text : List Char}
    (h : text.splitOnP isSeparator = [[]]) : text = [] := by
  cases text with
  | nil => rfl
  | cons c text =>
    obtain ⟨first, rest, hsplit⟩ :=
      List.exists_cons_of_ne_nil (List.splitOnP_ne_nil isSeparator text)
    rw [List.splitOnP_cons_eq_if_modifyHead, hsplit] at h
    split at h <;> cases h

theorem splitDrive_cases (g : Grammar) (text : List Char) :
    splitDrive g text = ([], text) ∨ ∃ letter, (splitDrive g text).1 = [.drive letter] := by
  unfold splitDrive
  split
  · rename_i letter rest
    split
    · exact Or.inr ⟨letter.toUpper, rfl⟩
    · exact Or.inl rfl
  · exact Or.inl rfl

/-- Only the empty text has no components. -/
theorem components_ne_nil {g : Grammar} {text : String} (h : text ≠ "") :
    components g text ≠ [] := by
  intro hnil
  rw [components, List.append_eq_nil_iff] at hnil
  obtain ⟨hdrive, hrest⟩ := hnil
  rcases splitDrive_cases g text.toList with heq | ⟨letter, heq⟩
  · rw [heq] at hrest
    have hempty := splitOnP_eq_nil (ofSegments_eq_nil hrest (List.splitOnP_ne_nil _ _))
    exact h (String.toList_injective hempty)
  · rw [heq] at hdrive
    cases hdrive

theorem splitOnP_congr {p q : Char → Bool} {text : List Char} (h : ∀ c ∈ text, p c = q c) :
    text.splitOnP p = text.splitOnP q := by
  induction text with
  | nil => rw [List.splitOnP_nil, List.splitOnP_nil]
  | cons c text ih =>
    rw [List.splitOnP_cons_eq_if_modifyHead, List.splitOnP_cons_eq_if_modifyHead,
      h c List.mem_cons_self, ih fun x hx => h x (List.mem_cons_of_mem _ hx)]

/-- Without a drive and without backslashes both hosts read a text alike. -/
theorem components_windows {text : String} (hback : '\\' ∉ text.toList)
    (hdrive : driveQualified text.toList = false) :
    components .windows text = components .posix text := by
  rw [components, components, splitDrive_eq (Or.inr hdrive), splitDrive_eq (Or.inl rfl)]
  congr 2
  apply splitOnP_congr
  intro c hc
  have hne : c ≠ '\\' := fun heq => hback (heq ▸ hc)
  simp [Grammar.isSeparator, hne]

end LexicalPath
