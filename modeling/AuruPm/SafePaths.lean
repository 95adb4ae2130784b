import AuruPm.HostPath
import AuruPm.Lib.LexicalPath

/-!
# Where a restore writes

Three checks of recorded paths, and what their results are joined to. Ableton and FL Studio
push the segments of a path one after another; only FL Studio looks for a drive in each of them.
-/

namespace AuruPm

set_option autoImplicit false

open LexicalPath

namespace Ableton

/-- The loop over the segments. -/
def pushSegments (g : Grammar) : Path → List String → Option Path
  | out, [] => some out
  | out, segment :: rest =>
    if segment = "" ∨ segment = "." then pushSegments g out rest
    else if segment = ".." then none
    else pushSegments g (join out (components g segment)) rest

def safeRelativePath (g : Grammar) (path : String) : Option Path :=
  if path = "" ∨ path.toList.head? = some '/' ∨ path.toList.head? = some '\\' then none
  else if driveQualified path.toList then none
  else
    match pushSegments g [] (segments isAnySlash path) with
    | none => none
    | some out => if out = [] then none else some out

end Ableton

namespace FlStudio

/-- The loop over the parts. -/
def joinParts (g : Grammar) (relative : String) : Path → List String → Except String Path
  | destination, [] => .ok destination
  | destination, part :: rest =>
    if part = "" ∨ part = "." then joinParts g relative destination rest
    else if part = ".." then
      projectFormatError
        ("refusing to restore '" ++ relative ++ "': it points outside the project")
    else if ':' ∈ part.toList then
      projectFormatError ("refusing to restore '" ++ relative ++ "': it names a drive")
    else joinParts g relative (join destination (components g part)) rest

def safeJoin (g : Grammar) (root : Path) (relative : String) : Except String Path :=
  if relative = "" then projectFormatError "a captured file has no destination"
  else
    match joinParts g relative root (segments isAnySlash relative) with
    | .error error => .error error
    | .ok destination =>
      if destination = root then
        projectFormatError ("refusing to restore '" ++ relative ++ "': it names no file")
      else .ok destination

end FlStudio

def Component.isNormal : LexicalPath.Component → Bool
  | .normal _ => true
  | _ => false

/-- `validate_archive_path` on this kind of host. -/
def validateArchivePathOn (g : Grammar) (path : String) : Except String Unit :=
  if path = "" ∨ '\\' ∈ path.toList then
    projectFormatError ("unsafe DAWproject archive path '" ++ path ++ "'")
  else if (components g path).all Component.isNormal = false then
    projectFormatError ("unsafe DAWproject archive path '" ++ path ++ "'")
  else .ok ()

/-! Segments. -/

theorem ordinary_of_segment {path segment : String} (h : segment ∈ segments isAnySlash path)
    (hname : segment ∉ ["", ".", ".."]) : Ordinary segment := by
  obtain ⟨text, htext, rfl⟩ := List.mem_map.mp h
  refine ⟨hname, fun c hc => ?_⟩
  rw [String.toList_ofList] at hc
  have hfree := not_separator_of_mem htext c hc
  simpa [isAnySlash] using hfree

/-- Pushing a name appends it. -/
theorem join_segment {g : Grammar} {segment : String} (h : Ordinary segment)
    (hdrive : g = .posix ∨ driveQualified segment.toList = false) (out : Path) :
    join out (components g segment) = out ++ [.normal segment] := by
  rw [components_ordinary h hdrive]
  rfl

/-- The segments that are pushed. -/
def pushed (parts : List String) : List String := parts.filter fun part => part ∉ ["", "."]

theorem pushed_skip {part : String} {parts : List String} (h : part = "" ∨ part = ".") :
    pushed (part :: parts) = pushed parts := by
  rw [pushed, List.filter_cons_of_neg (by simp [h]), pushed]

theorem pushed_cons {part : String} {parts : List String} (h : ¬(part = "" ∨ part = ".")) :
    pushed (part :: parts) = part :: pushed parts := by
  rw [pushed, List.filter_cons_of_pos (by simpa using h), pushed]

theorem not_driveQualified {text : List Char} (h : ':' ∉ text) : driveQualified text = false := by
  unfold driveQualified
  split
  · exact absurd (List.mem_cons_of_mem _ List.mem_cons_self) h
  · rfl

theorem Ableton.pushSegments_eq {g : Grammar} {parts : List String}
    (hparts : ∀ part ∈ parts, part ∉ ["", ".", ".."] → Ordinary part)
    (hdrive : g = .posix ∨ ∀ part ∈ parts, driveQualified part.toList = false) {out rel : Path}
    (h : pushSegments g out parts = some rel) : rel = out ++ (pushed parts).map .normal := by
  induction parts generalizing out with
  | nil =>
    cases h
    rw [pushed, List.filter_nil, List.map_nil, List.append_nil]
  | cons part parts ih =>
    have hrest := @ih (fun p hp => hparts p (List.mem_cons_of_mem _ hp))
      (hdrive.imp_right fun hd p hp => hd p (List.mem_cons_of_mem _ hp))
    rw [pushSegments] at h
    by_cases hskip : part = "" ∨ part = "."
    · rw [if_pos hskip] at h
      rw [pushed_skip hskip]
      exact hrest h
    · rw [if_neg hskip] at h
      by_cases hup : part = ".."
      · rw [if_pos hup] at h
        cases h
      · rw [if_neg hup] at h
        have hordinary := hparts part List.mem_cons_self (by simpa [hup] using hskip)
        rw [join_segment hordinary (hdrive.imp_right fun hd => hd part List.mem_cons_self)] at h
        rw [pushed_cons hskip, List.map_cons, ← List.singleton_append, ← List.append_assoc]
        exact hrest h

/-- Once a drive is pushed, the path keeps one. -/
theorem Ableton.pushSegments_drive {parts : List String}
    (hparts : ∀ part ∈ parts, part ∉ ["", ".", ".."] → Ordinary part) {out rel : Path}
    (hdrive : (∃ letter rest, out = .drive letter :: rest) ∨
      ∃ part ∈ parts, driveQualified part.toList = true)
    (h : pushSegments .windows out parts = some rel) :
    ∃ letter rest, rel = .drive letter :: rest := by
  induction parts generalizing out with
  | nil =>
    cases h
    exact hdrive.resolve_right fun ⟨part, hpart, _⟩ => absurd hpart List.not_mem_nil
  | cons part parts ih =>
    have hrest := @ih fun p hp => hparts p (List.mem_cons_of_mem _ hp)
    rw [pushSegments] at h
    by_cases hskip : part = "" ∨ part = "."
    · rw [if_pos hskip] at h
      refine hrest (hdrive.imp_right ?_) h
      intro ⟨p, hp, hqualified⟩
      rcases List.mem_cons.mp hp with rfl | hp
      · rcases hskip with rfl | rfl <;> cases hqualified
      · exact ⟨p, hp, hqualified⟩
    · rw [if_neg hskip] at h
      by_cases hup : part = ".."
      · rw [if_pos hup] at h
        cases h
      rw [if_neg hup] at h
      refine hrest ?_ h
      have hordinary := hparts part List.mem_cons_self (by simpa [hup] using hskip)
      by_cases hqualified : driveQualified part.toList = true
      · obtain ⟨letter, rest, heq⟩ := components_drive hqualified
        exact Or.inl ⟨letter, rest, by rw [heq]; rfl⟩
      · rw [join_segment hordinary (Or.inr (by simpa using hqualified))]
        rcases hdrive with ⟨letter, rest, rfl⟩ | ⟨p, hp, hp'⟩
        · exact Or.inl ⟨letter, rest ++ [.normal part], rfl⟩
        · rcases List.mem_cons.mp hp with rfl | hp
          · exact absurd hp' hqualified
          · exact Or.inr ⟨p, hp, hp'⟩

theorem FlStudio.joinParts_eq {g : Grammar} {relative : String} {parts : List String}
    (hparts : ∀ part ∈ parts, part ∉ ["", ".", ".."] → Ordinary part) {root joined : Path}
    (h : joinParts g relative root parts = .ok joined) :
    joined = root ++ (pushed parts).map .normal := by
  induction parts generalizing root with
  | nil =>
    cases h
    rw [pushed, List.filter_nil, List.map_nil, List.append_nil]
  | cons part parts ih =>
    have hrest := @ih fun p hp => hparts p (List.mem_cons_of_mem _ hp)
    rw [joinParts] at h
    by_cases hskip : part = "" ∨ part = "."
    · rw [if_pos hskip] at h
      rw [pushed_skip hskip]
      exact hrest h
    rw [if_neg hskip] at h
    by_cases hup : part = ".."
    · rw [if_pos hup] at h
      cases h
    rw [if_neg hup] at h
    by_cases hcolon : ':' ∈ part.toList
    · rw [if_pos hcolon] at h
      cases h
    rw [if_neg hcolon] at h
    have hordinary := hparts part List.mem_cons_self (by simpa [hup] using hskip)
    rw [join_segment hordinary (Or.inr (not_driveQualified hcolon))] at h
    rw [pushed_cons hskip, List.map_cons, ← List.singleton_append, ← List.append_assoc]
    exact hrest h

theorem names_of_normal {path : Path} (h : path.all Component.isNormal = true) :
    ∃ names : List String, path = names.map .normal := by
  induction path with
  | nil => exact ⟨[], rfl⟩
  | cons component path ih =>
    rw [List.all_cons, Bool.and_eq_true] at h
    obtain ⟨names, rfl⟩ := ih h.2
    cases component with
    | normal name => exact ⟨name :: names, rfl⟩
    | _ => cases h.1

/-- A path that is one text joins as it is read. -/
theorem join_components {g : Grammar} {path : String} (hne : path ≠ "")
    (hnormal : (components g path).all Component.isNormal = true) (base : Path) :
    StrictlyBelow base (join base (components g path)) := by
  obtain ⟨names, hnames⟩ := names_of_normal hnormal
  have hsome : names ≠ [] := by
    rintro rfl
    exact components_ne_nil hne hnames
  obtain ⟨name, names, rfl⟩ := List.exists_cons_of_ne_nil hsome
  rw [hnames, join_normal]
  exact strictlyBelow_append base hsome

theorem FlStudio.safeJoin_inside {g : Grammar} {root joined : Path} {relative : String}
    (h : safeJoin g root relative = .ok joined) : StrictlyBelow root joined := by
  rw [safeJoin] at h
  split at h
  · cases h
  split at h
  · cases h
  rename_i destination hparts
  split at h
  · cases h
  rename_i hne
  cases h
  have heq := joinParts_eq (fun part => ordinary_of_segment) hparts
  rw [heq] at hne ⊢
  apply strictlyBelow_append
  intro hnil
  rw [hnil, List.map_nil, List.append_nil] at hne
  exact hne rfl

theorem Ableton.safeRelativePath_some {g : Grammar} {path : String} {rel : Path}
    (h : safeRelativePath g path = some rel) :
    pushSegments g [] (segments isAnySlash path) = some rel ∧ rel ≠ [] := by
  rw [safeRelativePath] at h
  split at h
  · cases h
  split at h
  · cases h
  split at h
  · cases h
  rename_i out hout
  split at h
  · cases h
  rename_i hne
  cases h
  exact ⟨hout, hne⟩

theorem Ableton.safeRelativePath_inside {g : Grammar} {path : String} {rel : Path}
    (h : safeRelativePath g path = some rel)
    (hdrive : g = .posix ∨ ∀ segment ∈ segments isAnySlash path,
      driveQualified segment.toList = false) (base : Path) :
    StrictlyBelow base (join base rel) := by
  obtain ⟨hpushed, hne⟩ := safeRelativePath_some h
  have heq := pushSegments_eq (fun part => ordinary_of_segment) hdrive hpushed
  rw [List.nil_append] at heq
  rw [heq] at hne ⊢
  obtain ⟨name, names, hnames⟩ :=
    List.exists_cons_of_ne_nil fun hnil : pushed (segments isAnySlash path) = [] =>
      hne (by rw [hnil, List.map_nil])
  rw [hnames, join_normal]
  exact strictlyBelow_append base (List.cons_ne_nil name names)

theorem Ableton.safeRelativePath_drive {path : String} {rel : Path}
    (h : safeRelativePath .windows path = some rel)
    (hdrive : ∃ segment ∈ segments isAnySlash path, driveQualified segment.toList = true) :
    ¬StrictlyBelow [.rootDir] (join [.rootDir] rel) := by
  obtain ⟨letter, rest, rfl⟩ := pushSegments_drive (fun part => ordinary_of_segment)
    (Or.inr hdrive) (safeRelativePath_some h).1
  exact not_strictlyBelow_drive letter rest

theorem validateArchivePathOn_ok {g : Grammar} {path : String} :
    validateArchivePathOn g path = .ok () ↔
      path ≠ "" ∧ '\\' ∉ path.toList ∧ (components g path).all Component.isNormal = true := by
  rw [validateArchivePathOn]
  by_cases htext : path = "" ∨ '\\' ∈ path.toList
  · rw [if_pos htext]
    constructor
    · exact nofun
    · intro ⟨hne, hback, _⟩
      exact absurd htext (not_or.mpr ⟨hne, hback⟩)
  · rw [if_neg htext]
    obtain ⟨hne, hback⟩ := not_or.mp htext
    by_cases hnormal : (components g path).all Component.isNormal = false
    · rw [if_pos hnormal]
      constructor
      · exact nofun
      · intro ⟨_, _, hall⟩
        rw [hnormal] at hall
        cases hall
    · rw [if_neg hnormal]
      exact ⟨fun _ => ⟨hne, hback, by simpa using hnormal⟩, fun _ => rfl⟩

theorem all_filterMap_ofSegment (parts : List (List Char)) :
    (parts.filterMap ofSegment).all Component.isNormal = parts.all fun part => part ≠ ['.', '.'] := by
  induction parts with
  | nil => rfl
  | cons part parts ih =>
    rw [List.filterMap_cons, List.all_cons, ← ih]
    by_cases hskip : part = [] ∨ part = ['.']
    · rw [ofSegment, if_pos hskip]
      rcases hskip with rfl | rfl <;> simp
    · by_cases hup : part = ['.', '.']
      · simp [ofSegment, hup, Component.isNormal]
      · simp [ofSegment, hskip, hup, Component.isNormal]

/-- On a POSIX host the check of archive paths is the one that portable snapshots are read with. -/
theorem validateArchivePathOn_posix (path : String) :
    validateArchivePathOn .posix path = validateArchivePath path := by
  have hsplit : path.toList.splitOnP (Grammar.isSeparator .posix) = path.toList.splitOn '/' := by
    rw [List.splitOn_eq_splitOnP]
    exact splitOnP_congr fun c _ => rfl
  have hnormal : path ≠ "" →
      (components .posix path).all Component.isNormal = hasNormalComponents path := by
    intro hne
    rw [components, splitDrive_eq (Or.inl rfl), hasNormalComponents, List.nil_append, hsplit]
    generalize hparts : path.toList.splitOn '/' = parts
    unfold ofSegments
    split
    · rw [List.splitOn_eq_splitOnP] at hparts
      exact absurd (String.toList_injective (splitOnP_eq_nil hparts)) hne
    · rfl
    · rfl
    · rename_i hsingle hroot hdot
      rw [all_filterMap_ofSegment]
      cases parts with
      | nil => rfl
      | cons part parts =>
        have hnil : part ≠ [] := fun hnil => hroot parts (by rw [hnil])
        have hcur : part ≠ ['.'] := fun hcur => hdot parts (by rw [hcur])
        simp [hnil, hcur]
  rw [validateArchivePathOn, validateArchivePath]
  by_cases htext : path = "" ∨ '\\' ∈ path.toList
  · rw [if_pos htext, if_pos (by tauto)]
  · rw [if_neg htext, hnormal fun h => htext (Or.inl h)]
    by_cases hall : hasNormalComponents path = false
    · rw [if_pos hall, if_pos (Or.inr (Or.inr hall))]
    · rw [if_neg hall, if_neg (by tauto)]

/-- What the three checks accept lands below every destination, but for segments with a drive
among those that Ableton pushes. A path that was checked on one kind of host and is joined on
the other stays inside unless it starts with a drive. -/
theorem restored_paths_inside (path : String) :
    ((∀ g base rel, Ableton.safeRelativePath g path = some rel →
        StrictlyBelow base (join base rel)) ↔
      ((Ableton.safeRelativePath .windows path).isSome →
        ∀ segment ∈ segments isAnySlash path, driveQualified segment.toList = false)) ∧
      (∀ g base joined, FlStudio.safeJoin g base path = .ok joined → StrictlyBelow base joined) ∧
      (∀ g base, validateArchivePathOn g path = .ok () →
        StrictlyBelow base (join base (components g path))) ∧
      ((∀ base, validateArchivePathOn .posix path = .ok () →
          StrictlyBelow base (join base (components .windows path))) ↔
        (validateArchivePathOn .posix path = .ok () → driveQualified path.toList = false)) := by
  refine ⟨⟨?_, ?_⟩, ?_, ?_, ?_, ?_⟩
  · intro hinside haccepted segment hsegment
    obtain ⟨rel, hrel⟩ := Option.isSome_iff_exists.mp haccepted
    by_contra hdrive
    exact Ableton.safeRelativePath_drive hrel ⟨segment, hsegment, by simpa using hdrive⟩
      (hinside .windows [.rootDir] rel hrel)
  · intro hfree g base rel hrel
    cases g with
    | posix => exact Ableton.safeRelativePath_inside hrel (Or.inl rfl) base
    | windows =>
      exact Ableton.safeRelativePath_inside hrel (Or.inr (hfree (by rw [hrel]; rfl))) base
  · exact fun g base joined => FlStudio.safeJoin_inside
  · intro g base haccepted
    obtain ⟨hne, -, hnormal⟩ := validateArchivePathOn_ok.mp haccepted
    exact join_components hne hnormal base
  · intro hinside haccepted
    by_contra hdrive
    obtain ⟨letter, rest, heq⟩ := components_drive (by simpa using hdrive)
    have hbelow := hinside [.rootDir] haccepted
    rw [heq] at hbelow
    exact not_strictlyBelow_drive letter rest hbelow
  · intro hfree base haccepted
    obtain ⟨hne, hback, hnormal⟩ := validateArchivePathOn_ok.mp haccepted
    rw [components_windows hback (hfree haccepted)]
    exact join_components hne hnormal base

/-- The drive of a later segment replaces the destination. -/
theorem drive_segment_escapes :
    ∃ rel, Ableton.safeRelativePath .windows "Samples/C:evil.wav" = some rel ∧
      ¬StrictlyBelow [.drive 'D', .rootDir, .normal "Restored"]
        (join [.drive 'D', .rootDir, .normal "Restored"] rel) := by
  refine ⟨[.drive 'C', .normal "evil.wav"], by decide, ?_⟩
  intro ⟨names, _, heq⟩
  cases heq

end AuruPm
