import AuruPm.FileRefs
import AuruPm.FlStream
import AuruPm.SafePaths
import AuruPm.Server
import Mathlib.Data.List.DropRight

/-!
# The folder of a restore

A provider names the place of a project. Each part of it is cleaned: characters are replaced, the
text is cut, and white space, dots and white space again are trimmed. The parts are then
joined to the destination.
-/

namespace AuruPm

set_option autoImplicit false

open LexicalPath

namespace Restore

/-! Names. -/

def replaced (c : Char) : Char :=
  if c ∈ ['/', '\\', ':', '*', '?', '"', '<', '>', '|'] then '_'
  else if Ableton.isControl c then '_'
  else c

/-- The loop over the characters, with the bytes written so far. -/
def takeBytes (maxBytes : Nat) : Nat → List Char → List Char
  | _, [] => []
  | written, c :: rest =>
    let written := written + (replaced c).utf8Size
    if maxBytes < written then [] else replaced c :: takeBytes maxBytes written rest

/-- `trim_matches` -/
def trim (p : Char → Bool) (text : List Char) : List Char := (text.dropWhile p).rdropWhile p

def isDot (c : Char) : Bool := c = '.'

/-- What is left of a component, which may be nothing. -/
def cleaned (maxBytes : Nat) (value : String) : List Char :=
  trim FlStudio.isWhitespace <| trim isDot <| trim FlStudio.isWhitespace <|
    takeBytes maxBytes 0 value.toList

def safeFileComponent (value fallback : String) (maxBytes : Nat) : String :=
  if cleaned maxBytes value = [] then fallback else String.ofList (cleaned maxBytes value)

-- The membership tests of a name share this proof.
local instance lawfulBEq_chars : LawfulBEq (List Char) := inferInstance

def isWindowsReservedName (value : String) : Bool :=
  let stem := (value.toList.takeWhile (· ≠ '.')).map Char.toUpper
  let numbers : List (List Char) := [['1'], ['2'], ['3'], ['4'], ['5'], ['6'], ['7'], ['8'], ['9']]
  stem ∈ ["CON", "PRN", "AUX", "NUL"].map String.toList ||
    match stem with
    | 'C' :: 'O' :: 'M' :: number => number ∈ numbers
    | 'L' :: 'P' :: 'T' :: number => number ∈ numbers
    | _ => false

def extension : ProjectFormat → String
  | .auru => "auru"
  | .dawproject => "dawproject"
  | .abletonLiveSet => "als"
  | .flStudio => "flp"
  | .bitwigProject => "bwproject"

def safeProjectFileName (displayName : String) (format : ProjectFormat) : String :=
  let stem := safeFileComponent displayName "Restored Project" 160
  (if isWindowsReservedName stem then "_" ++ stem else stem) ++ "." ++ extension format

/-! Locations. -/

def maxComponents : Nat := 32

/-- The loop over the components of a location, from this index. -/
def safeComponents : Nat → List String → Option (List String)
  | _, [] => some []
  | index, component :: rest =>
    if maxComponents ≤ index ∨ component = "" ∨ component ∈ [".", ".."] then none
    else
      let name := safeFileComponent component "" 160
      if name = "" then none
      else
        (safeComponents (index + 1) rest).map fun names =>
          (if isWindowsReservedName name then "_" ++ name else name) :: names

/-- The components that `safe_restore_location` looks at. -/
def locationParts (location : Server.ProjectLocation) : List String :=
  segments isSlash (String.ofList (trim FlStudio.isWhitespace location.relativePath.toList))

/-- The names that it pushes. -/
def locationNames (location : Server.ProjectLocation) : Option (List String) :=
  let value := trim FlStudio.isWhitespace location.relativePath.toList
  if value = [] ∨ value.head? = some '/' ∨ value.head? = some '\\' then none
  else safeComponents 0 (locationParts location)

def safeRestoreLocation (g : Grammar) (location : Server.ProjectLocation) : Option Path :=
  (locationNames location).bind fun names =>
    let relative := names.foldl (fun relative name => join relative (components g name)) []
    if relative = [] then none else some relative

/-! Folders. -/

/-- The 32 bytes of a hash. -/
abbrev ContentHash := { bytes : List UInt8 // bytes.length = 32 }

def hexDigit (n : Nat) : Char :=
  if n < 10 then Char.ofNat ('0'.toNat + n) else Char.ofNat ('a'.toNat + (n - 10))

/-- `Display` of a hash. -/
def hashDisplay (hash : ContentHash) : String :=
  "blake3:" ++ String.ofList
    (hash.1.flatMap fun b => [hexDigit (b.toNat / 16), hexDigit (b.toNat % 16)])

/-- `Path::file_stem` -/
def fileStem (path : Path) : Option String :=
  (fileName path).map fun name => (HostPath.splitName name).1

def restoreRootCandidate (g : Grammar) (destination projectPath : Path) (commitId : ContentHash) :
    Path :=
  let stem := (fileStem projectPath).getD "Project"
  let commit := (FlStudio.stripPrefix "blake3:" (hashDisplay commitId)).getD (hashDisplay commitId)
  let name := stem ++ " Restored " ++ String.ofList (commit.toList.take 8)
  join destination (components g name)

def restoreRootFor (g : Grammar) (destination : Path) (location : Option Server.ProjectLocation)
    (fallbackProjectPath : Path) (commitId : ContentHash) : Path :=
  match location.bind (safeRestoreLocation g) with
  | none => restoreRootCandidate g destination fallbackProjectPath commitId
  | some relative =>
    let parent := (parent relative).getD []
    let projectPath := ((fileName relative).map (components g)).getD fallbackProjectPath
    restoreRootCandidate g (join destination parent) projectPath commitId

def restoreTarget (g : Grammar) (destination : Path) (requestedFileName : String)
    (format : ProjectFormat) (location : Option Server.ProjectLocation) (commitId : ContentHash) :
    Path :=
  let requestedStem := (fileStem (components g requestedFileName)).getD "Restored Project"
  let fileName := safeProjectFileName requestedStem format
  restoreRootFor g destination location (components g fileName) commitId

/-! Trimming. -/

section Trimming
variable {p : Char → Bool} {text : List Char}

theorem trim_split (p : Char → Bool) (text : List Char) :
    ∃ before after, text = before ++ trim p text ++ after ∧ (∀ c ∈ before, p c = true) ∧
      ∀ c ∈ after, p c = true := by
  refine ⟨text.takeWhile p, (text.dropWhile p).rtakeWhile p, ?_, ?_, ?_⟩
  · rw [List.append_assoc, trim, List.rdropWhile_append_rtakeWhile,
      List.takeWhile_append_dropWhile]
  · exact fun c hc => List.mem_takeWhile_imp hc
  · exact fun c hc => List.mem_rtakeWhile_imp hc

theorem mem_of_mem_trim {c : Char} (h : c ∈ trim p text) : c ∈ text := by
  obtain ⟨before, after, heq, -⟩ := trim_split p text
  rw [heq]
  exact List.mem_append_left _ (List.mem_append_right _ h)

/-- Neither end of a trimmed text would be trimmed. -/
theorem trim_head {c : Char} {rest : List Char} (h : trim p text = c :: rest) : p c = false := by
  have hdrop : trim p text ++ (text.dropWhile p).rtakeWhile p = text.dropWhile p :=
    List.rdropWhile_append_rtakeWhile
  rw [h, List.cons_append] at hdrop
  have hhead := List.head?_dropWhile_not p text
  rw [← hdrop] at hhead
  exact hhead

theorem trim_last {c : Char} {rest : List Char} (h : trim p text = rest ++ [c]) : p c = false := by
  rw [trim] at h
  have hlast := List.rdropWhile_last_not p (text.dropWhile p) (by simp [h])
  simpa [h] using hlast

theorem trim_append {before middle after : List Char} (hbefore : ∀ c ∈ before, p c = true)
    (hafter : ∀ c ∈ after, p c = true) {first last : Char} {inner inner' : List Char}
    (hfirst : middle = first :: inner) (hlast : middle = inner' ++ [last])
    (hf : p first = false) (hl : p last = false) : trim p (before ++ middle ++ after) = middle := by
  have hleft : (before ++ middle ++ after).dropWhile p = middle ++ after := by
    rw [List.append_assoc, List.dropWhile_append_of_pos hbefore, hfirst, List.cons_append,
      List.dropWhile_cons_of_neg (by simp [hf])]
  rw [trim, hleft, List.rdropWhile, List.reverse_append,
    List.dropWhile_append_of_pos (by simpa using hafter), hlast, List.reverse_append,
    List.reverse_singleton, List.singleton_append, List.dropWhile_cons_of_neg (by simp [hl]),
    List.reverse_cons, List.reverse_reverse]

theorem trim_trim (p : Char → Bool) (text : List Char) : trim p (trim p text) = trim p text := by
  rcases List.eq_nil_or_concat' (trim p text) with hnil | ⟨inner', last, hlast⟩
  · rw [hnil]
    rfl
  · obtain ⟨first, inner, hfirst⟩ : ∃ first inner, trim p text = first :: inner :=
      List.exists_cons_of_ne_nil (by simp [hlast])
    have hends : trim p ([] ++ trim p text ++ []) = trim p text :=
      trim_append nofun nofun hfirst hlast (trim_head hfirst) (trim_last hlast)
    rwa [List.nil_append, List.append_nil] at hends

end Trimming

/-! Components of dots. -/

/-- A text of dots and white space that is trimmed down to these dots. -/
def TrimsTo (core text : List Char) : Prop :=
  ∃ blank dots gap gap' dots' blank' : List Char,
    text = blank ++ (dots ++ (gap ++ core ++ gap') ++ dots') ++ blank' ∧
      (∀ c ∈ blank ++ blank', FlStudio.isWhitespace c = true) ∧
      (∀ c ∈ gap ++ gap', FlStudio.isWhitespace c = true) ∧
      (∀ c ∈ dots ++ dots', isDot c = true) ∧
      (dots ≠ [] ∧ dots' ≠ []) ∧ gap ≠ [] ∧ gap' ≠ []

/-- Dots, white space, one or two dots, white space and dots, with white space around. -/
def Dotted (text : List Char) : Prop := TrimsTo ['.'] text ∨ TrimsTo ['.', '.'] text

/-- What stands before and after a trimmed text is there when it would be trimmed otherwise. -/
theorem trim_between {p q : Char → Bool} {text middle : List Char} {first last : Char}
    {inner inner' : List Char} (h : trim p (trim q text) = middle) (hfirst : middle = first :: inner)
    (hlast : middle = inner' ++ [last]) (hf : q first = true) (hl : q last = true) :
    ∃ before after, trim q text = before ++ middle ++ after ∧ before ≠ [] ∧ after ≠ [] ∧
      ∀ c ∈ before ++ after, p c = true := by
  obtain ⟨before, after, heq, hbefore, hafter⟩ := trim_split p (trim q text)
  rw [h] at heq
  refine ⟨before, after, heq, ?_, ?_, ?_⟩
  · rintro rfl
    rw [hfirst] at heq
    rw [trim_head heq] at hf
    cases hf
  · rintro rfl
    rw [hlast, List.append_nil, ← List.append_assoc] at heq
    rw [trim_last heq] at hl
    cases hl
  · intro c hc
    rcases List.mem_append.mp hc with hc | hc
    · exact hbefore c hc
    · exact hafter c hc

theorem not_isDot {c : Char} (h : FlStudio.isWhitespace c = true) : isDot c = false := by
  rw [isDot, decide_eq_false_iff_not]
  rintro rfl
  revert h
  decide

theorem not_isWhitespace {c : Char} (h : isDot c = true) : FlStudio.isWhitespace c = false := by
  rw [isDot, decide_eq_true_eq] at h
  rw [h]
  decide

/-- The two ends of a text that has something of one kind at both. -/
theorem exists_ends {p : Char → Bool} {before after : List Char} (middle : List Char) (hbefore : before ≠ [])
    (hafter : after ≠ []) (h : ∀ c ∈ before ++ after, p c = true) :
    ∃ first last inner inner', before ++ middle ++ after = first :: inner ∧
      before ++ middle ++ after = inner' ++ [last] ∧ p first = true ∧ p last = true := by
  obtain ⟨first, before, rfl⟩ := List.exists_cons_of_ne_nil hbefore
  obtain ⟨after', last, rfl⟩ := (List.eq_nil_or_concat after).resolve_left hafter
  rw [List.concat_eq_append] at h ⊢
  exact ⟨first, last, before ++ middle ++ (after' ++ [last]),
    first :: before ++ middle ++ after', by simp, by simp, h first (by simp), h last (by simp)⟩

theorem cleaned_eq_iff {maxBytes : Nat} {value : String} {core : List Char}
    (hcore : core = ['.'] ∨ core = ['.', '.']) :
    cleaned maxBytes value = core ↔ TrimsTo core (takeBytes maxBytes 0 value.toList) := by
  obtain ⟨inner, inner', hfirst, hlast⟩ :
      ∃ inner inner', core = '.' :: inner ∧ core = inner' ++ ['.'] := by
    rcases hcore with rfl | rfl
    · exact ⟨[], [], rfl, rfl⟩
    · exact ⟨['.'], ['.'], rfl, rfl⟩
  rw [cleaned]
  generalize takeBytes maxBytes 0 value.toList = text
  constructor
  · intro h
    obtain ⟨gap, gap', hgaps, hgap, hgap', hwhite⟩ :=
      trim_between h hfirst hlast (show isDot '.' = true by decide) (by decide)
    obtain ⟨first, last, tail, init, hf, hl, hwf, hwl⟩ :=
      exists_ends core hgap hgap' hwhite
    obtain ⟨dots, dots', hdots, hdot, hdot', halldots⟩ := trim_between hgaps hf hl hwf hwl
    obtain ⟨blank, blank', htext, hblank, hblank'⟩ := trim_split FlStudio.isWhitespace text
    rw [hdots] at htext
    refine ⟨blank, dots, gap, gap', dots', blank', htext, ?_, hwhite, halldots, ⟨hdot, hdot'⟩, hgap,
      hgap'⟩
    intro c hc
    rcases List.mem_append.mp hc with hc | hc
    · exact hblank c hc
    · exact hblank' c hc
  · intro ⟨blank, dots, gap, gap', dots', blank', htext, hblank, hwhite, hdots, ⟨hdot, hdot'⟩, hgap,
      hgap'⟩
    obtain ⟨first, last, tail, init, hf, hl, hdf, hdl⟩ :=
      exists_ends (gap ++ core ++ gap') hdot hdot' hdots
    obtain ⟨first', last', tail', init', hf', hl', hwf, hwl⟩ :=
      exists_ends core hgap hgap' hwhite
    rw [htext, trim_append (fun c hc => hblank c (List.mem_append_left _ hc))
      (fun c hc => hblank c (List.mem_append_right _ hc)) hf hl (not_isWhitespace hdf)
      (not_isWhitespace hdl)]
    rw [trim_append (fun c hc => hdots c (List.mem_append_left _ hc))
      (fun c hc => hdots c (List.mem_append_right _ hc)) hf' hl' (not_isDot hwf) (not_isDot hwl)]
    exact trim_append (fun c hc => hwhite c (List.mem_append_left _ hc))
      (fun c hc => hwhite c (List.mem_append_right _ hc)) hfirst hlast (by decide) (by decide)

/-! What the names are made of. -/

/-- No separator of any host, and no drive. -/
def Plain (text : List Char) : Prop := ∀ c ∈ text, c ≠ '/' ∧ c ≠ '\\' ∧ c ≠ ':'

instance (text : List Char) : Decidable (Plain text) :=
  List.decidableBAll (fun c => c ≠ '/' ∧ c ≠ '\\' ∧ c ≠ ':') text

theorem Plain.append {text text' : List Char} (h : Plain text) (h' : Plain text') :
    Plain (text ++ text') := by
  intro c hc
  rcases List.mem_append.mp hc with hc | hc
  · exact h c hc
  · exact h' c hc

theorem Plain.ordinary {name : String} (h : Plain name.toList) (hname : name ∉ ["", ".", ".."]) :
    Ordinary name :=
  ⟨hname, fun c hc => ⟨(h c hc).1, (h c hc).2.1⟩⟩

theorem Plain.ordinary_of_mem {name : String} (h : Plain name.toList) {c : Char}
    (hc : c ∈ name.toList) (hdot : c ≠ '.') : Ordinary name := by
  apply h.ordinary
  intro hname
  have hall : ∀ text ∈ ["", ".", ".."], c ∈ text.toList → c = '.' := by simp
  exact hdot (hall name hname hc)

theorem Plain.components {name : String} (h : Plain name.toList) (hname : Ordinary name)
    (g : Grammar) : components g name = [.normal name] :=
  components_ordinary hname (Or.inr (not_driveQualified fun hcolon => (h ':' hcolon).2.2 rfl))

theorem takeBytes_plain (maxBytes written : Nat) (text : List Char) :
    Plain (takeBytes maxBytes written text) := by
  induction text generalizing written with
  | nil => exact fun c hc => absurd hc List.not_mem_nil
  | cons x text ih =>
    rw [takeBytes]
    split
    · exact fun c hc => absurd hc List.not_mem_nil
    · intro c hc
      rcases List.mem_cons.mp hc with rfl | hc
      · unfold replaced
        split
        · decide
        · rename_i hmem
          split
          · decide
          · refine ⟨?_, ?_, ?_⟩ <;> rintro rfl <;> exact hmem (by decide)
      · exact ih _ c hc

theorem safeFileComponent_plain (value : String) {fallback : String} (hfallback : Plain fallback.toList)
    (maxBytes : Nat) : Plain (safeFileComponent value fallback maxBytes).toList := by
  unfold safeFileComponent
  split
  · exact hfallback
  · rw [String.toList_ofList]
    intro c hc
    exact takeBytes_plain _ _ _ c (mem_of_mem_trim (mem_of_mem_trim (mem_of_mem_trim hc)))

/-- The name for a component. -/
def pushedName (component : String) : String :=
  let name := safeFileComponent component "" 160
  if isWindowsReservedName name then "_" ++ name else name

theorem safeComponents_some {index : Nat} {parts names : List String}
    (h : safeComponents index parts = some names) :
    names = parts.map pushedName ∧ ∀ part ∈ parts, safeFileComponent part "" 160 ≠ "" := by
  induction parts generalizing index names with
  | nil =>
    cases h
    exact ⟨rfl, fun part hpart => absurd hpart List.not_mem_nil⟩
  | cons part parts ih =>
    rw [safeComponents] at h
    split at h
    · cases h
    simp only at h
    split at h
    · cases h
    rename_i hne
    obtain ⟨rest, hrest, heq⟩ := Option.map_eq_some_iff.mp h
    obtain ⟨hnames, hall⟩ := ih hrest
    refine ⟨by rw [← heq, hnames]; rfl, fun p hp => ?_⟩
    rcases List.mem_cons.mp hp with rfl | hp
    · exact hne
    · exact hall p hp

theorem pushedName_plain (component : String) : Plain (pushedName component).toList := by
  have hplain := safeFileComponent_plain component (show Plain "".toList by decide) 160
  unfold pushedName
  simp only
  split
  · rw [String.toList_append]
    exact Plain.append (by decide) hplain
  · exact hplain

theorem dotted_iff {component : String} (hne : safeFileComponent component "" 160 ≠ "") :
    Dotted (takeBytes 160 0 component.toList) ↔
      safeFileComponent component "" 160 ∈ [".", ".."] := by
  have hcleaned : cleaned 160 component ≠ [] := by
    intro hnil
    rw [safeFileComponent, if_pos hnil] at hne
    exact hne rfl
  rw [Dotted, ← cleaned_eq_iff (Or.inl rfl), ← cleaned_eq_iff (Or.inr rfl), safeFileComponent,
    if_neg hcleaned]
  constructor
  · rintro (h | h) <;> rw [h] <;> decide
  · intro h
    rcases List.mem_cons.mp h with h | h
    · exact Or.inl (by simpa using congrArg String.toList h)
    · exact Or.inr (by simpa using congrArg String.toList (List.mem_singleton.mp h))

theorem pushedName_ordinary_iff {component : String}
    (hne : safeFileComponent component "" 160 ≠ "") :
    Ordinary (pushedName component) ↔ ¬Dotted (takeBytes 160 0 component.toList) := by
  rw [dotted_iff hne]
  have hplain := pushedName_plain component
  unfold pushedName at hplain ⊢
  generalize safeFileComponent component "" 160 = name at hne hplain ⊢
  simp only at hplain ⊢
  by_cases hreserved : isWindowsReservedName name = true
  · rw [if_pos hreserved] at hplain ⊢
    constructor
    · intro _ hdots
      rcases List.mem_cons.mp hdots with rfl | hdots
      · revert hreserved
        decide
      · rw [List.mem_singleton.mp hdots] at hreserved
        revert hreserved
        decide
    · intro _
      exact hplain.ordinary_of_mem (c := '_') (by simp) (by decide)
  · rw [if_neg hreserved] at hplain ⊢
    constructor
    · exact fun h hdots => h.1 (List.mem_cons_of_mem _ hdots)
    · intro hdots
      apply hplain.ordinary
      intro hmem
      exact (List.mem_cons.mp hmem).elim hne hdots

theorem safeProjectFileName_plain (displayName : String) (format : ProjectFormat) :
    Plain (safeProjectFileName displayName format).toList := by
  have hstem := safeFileComponent_plain displayName
    (show Plain "Restored Project".toList by decide) 160
  unfold safeProjectFileName
  simp only
  rw [String.toList_append, String.toList_append]
  refine Plain.append (Plain.append ?_ (by decide)) (by cases format <;> decide)
  split
  · rw [String.toList_append]
    exact Plain.append (by decide) hstem
  · exact hstem

/-- The extension keeps a file name from being empty or only dots. -/
theorem safeProjectFileName_ordinary (displayName : String) (format : ProjectFormat) :
    Ordinary (safeProjectFileName displayName format) := by
  have hplain := safeProjectFileName_plain displayName format
  obtain ⟨c, hc, hdot⟩ : ∃ c, c ∈ (extension format).toList ∧ c ≠ '.' := by
    cases format with
    | auru => exact ⟨'a', by decide, by decide⟩
    | dawproject => exact ⟨'d', by decide, by decide⟩
    | abletonLiveSet => exact ⟨'a', by decide, by decide⟩
    | flStudio => exact ⟨'f', by decide, by decide⟩
    | bitwigProject => exact ⟨'b', by decide, by decide⟩
  refine hplain.ordinary_of_mem ?_ hdot
  unfold safeProjectFileName
  simp only
  rw [String.toList_append]
  exact List.mem_append_right _ hc

theorem rsplitDot_stem {name stem after : List Char} (h : rsplitDot name = some (stem, after)) :
    stem ⊆ name := by
  rw [rsplitDot] at h
  split at h
  · cases h
  rename_i heq
  cases h
  intro c hc
  rw [List.mem_reverse] at hc
  rw [← List.mem_reverse]
  exact (List.dropWhile_sublist _).subset (heq ▸ List.mem_cons_of_mem _ hc)

theorem stem_plain {name : String} (h : Plain name.toList) :
    Plain (HostPath.splitName name).1.toList := by
  unfold HostPath.splitName
  split
  · exact h
  · exact h
  · rename_i stem after _ heq
    rw [String.toList_ofList]
    exact fun c hc => h c (rsplitDot_stem heq hc)

theorem hexDigit_plain : ∀ n < 16, Plain [hexDigit n] := by decide

theorem commit_plain (commitId : ContentHash) :
    Plain ((FlStudio.stripPrefix "blake3:" (hashDisplay commitId)).getD
      (hashDisplay commitId)).toList := by
  have hstrip : FlStudio.stripPrefix "blake3:" (hashDisplay commitId) =
      some (String.ofList
        (commitId.1.flatMap fun b => [hexDigit (b.toNat / 16), hexDigit (b.toNat % 16)])) := by
    have hlength : "blake3:".length = "blake3:".toList.length := rfl
    rw [FlStudio.stripPrefix, hashDisplay, String.toList_append, if_pos (by simp), hlength,
      List.drop_left, String.toList_ofList]
  rw [hstrip, Option.getD_some, String.toList_ofList]
  intro c hc
  obtain ⟨b, -, hb⟩ := List.mem_flatMap.mp hc
  have hhigh : b.toNat / 16 < 16 := by
    have := b.toNat_lt
    omega
  rcases List.mem_cons.mp hb with rfl | hb
  · exact hexDigit_plain _ hhigh _ List.mem_cons_self
  · rw [List.mem_singleton.mp hb]
    exact hexDigit_plain _ (Nat.mod_lt _ (by decide)) _ List.mem_cons_self

theorem restored_plain {stem commit : List Char} (hstem : Plain stem) (hcommit : Plain commit) :
    Plain (stem ++ " Restored ".toList ++ commit) :=
  (hstem.append (by decide)).append hcommit

theorem candidate_eq (g : Grammar) (destination : Path) {name : String} (h : Plain name.toList)
    (commitId : ContentHash) :
    ∃ folder, Ordinary folder ∧ restoreRootCandidate g destination [.normal name] commitId =
      destination ++ [.normal folder] := by
  have hstem : fileStem [.normal name] = some (HostPath.splitName name).1 := rfl
  have hcommit := commit_plain commitId
  simp only [restoreRootCandidate, hstem, Option.getD_some]
  generalize (FlStudio.stripPrefix "blake3:" (hashDisplay commitId)).getD
    (hashDisplay commitId) = commit at hcommit
  have hplain := restored_plain (stem_plain h) fun c hc =>
    hcommit c (List.mem_of_mem_take (i := 8) hc)
  generalize hfolder : (HostPath.splitName name).1 ++ " Restored " ++
    String.ofList (commit.toList.take 8) = folder
  have htext : folder.toList = (HostPath.splitName name).1.toList ++ " Restored ".toList ++
      commit.toList.take 8 := by
    simp only [← hfolder, String.toList_append, String.toList_ofList]
  rw [← htext] at hplain
  have hletter : 'R' ∈ folder.toList := by
    rw [htext]
    exact List.mem_append_left _ (List.mem_append_right _ (by decide))
  have hordinary := hplain.ordinary_of_mem hletter (by decide)
  exact ⟨folder, hordinary, by rw [hplain.components hordinary]; rfl⟩

/-! The folder. -/

theorem foldl_join {g : Grammar} {names : List String} (hplain : ∀ name ∈ names, Plain name.toList)
    (hordinary : ∀ name ∈ names, Ordinary name) (base : Path) :
    names.foldl (fun relative name => join relative (components g name)) base =
      base ++ names.map .normal := by
  induction names generalizing base with
  | nil => exact (List.append_nil base).symm
  | cons name names ih =>
    rw [List.foldl_cons, (hplain name List.mem_cons_self).components
      (hordinary name List.mem_cons_self) g]
    rw [ih (fun n hn => hplain n (List.mem_cons_of_mem _ hn))
      (fun n hn => hordinary n (List.mem_cons_of_mem _ hn))]
    change base ++ [.normal name] ++ names.map .normal = _
    rw [List.append_assoc]
    rfl

theorem locationNames_some {place : Server.ProjectLocation} {names : List String}
    (h : locationNames place = some names) :
    names = (locationParts place).map pushedName ∧ names ≠ [] ∧
      ∀ part ∈ locationParts place, safeFileComponent part "" 160 ≠ "" := by
  rw [locationNames] at h
  split at h
  · cases h
  obtain ⟨hnames, hall⟩ := safeComponents_some h
  refine ⟨hnames, ?_, hall⟩
  rw [hnames]
  intro hnil
  exact List.splitOnP_ne_nil _ _ (List.map_eq_nil_iff.mp (List.map_eq_nil_iff.mp hnil))

theorem restoreRootFor_eq (g : Grammar) (destination : Path) {place : Server.ProjectLocation}
    {names : List String} (h : locationNames place = some names)
    (hordinary : ∀ name ∈ names, Ordinary name) (fallback : Path) (commitId : ContentHash) :
    ∃ folders, folders ≠ [] ∧ restoreRootFor g destination (some place) fallback commitId =
      destination ++ folders.map .normal := by
  obtain ⟨hnames, hne, -⟩ := locationNames_some h
  have hplain : ∀ name ∈ names, Plain name.toList := by
    intro name hname
    rw [hnames] at hname
    obtain ⟨part, -, rfl⟩ := List.mem_map.mp hname
    exact pushedName_plain part
  have hrelative : safeRestoreLocation g place = some (names.map .normal) := by
    rw [safeRestoreLocation, h, Option.bind_some]
    simp only
    rw [foldl_join hplain hordinary, List.nil_append, if_neg]
    exact fun hnil => hne (List.map_eq_nil_iff.mp hnil)
  obtain ⟨init, last, hlast⟩ := (List.eq_nil_or_concat names).resolve_left hne
  rw [List.concat_eq_append] at hlast
  have hmem : last ∈ names := hlast ▸ List.mem_append_right _ List.mem_cons_self
  have hpath : names.map LexicalPath.Component.normal = init.map .normal ++ [.normal last] := by
    rw [hlast, List.map_append]
    rfl
  have hparent : parent (names.map .normal) = some (init.map .normal) := by
    rw [hpath, parent, List.getLast?_concat]
    exact congrArg some List.dropLast_concat
  have hfile : fileName (names.map .normal) = some last := by
    rw [hpath, fileName, List.getLast?_concat]
  obtain ⟨folder, -, hfolder⟩ := candidate_eq g (join destination (init.map .normal))
    (hplain last hmem) commitId
  refine ⟨init ++ [folder], by simp, ?_⟩
  have hjoin : join destination (init.map .normal) = destination ++ init.map .normal := by
    cases init <;> rfl
  rw [restoreRootFor, Option.bind_some, hrelative]
  simp only [hparent, hfile, Option.map_some, Option.getD_some]
  rw [(hplain last hmem).components (hordinary last hmem), hfolder, hjoin, List.append_assoc,
    List.map_append]
  rfl

/-- The folder is below the destination, and all names are ordinary ones. -/
structure Confined (location : Option Server.ProjectLocation) (requested : String)
    (format : ProjectFormat) (commitId : ContentHash) : Prop where
  below : ∀ g destination,
    StrictlyBelow destination (restoreTarget g destination requested format location commitId)
  names : ∀ place ∈ location, ∀ names, locationNames place = some names →
    ∀ name ∈ names, Ordinary name
  fileName : Ordinary (safeProjectFileName requested format)

theorem restore_confined_iff (location : Option Server.ProjectLocation) (requested : String)
    (format : ProjectFormat) (commitId : ContentHash) :
    Confined location requested format commitId ↔
      ∀ place ∈ location, (locationNames place).isSome →
        ∀ part ∈ locationParts place, ¬Dotted (takeBytes 160 0 part.toList) := by
  constructor
  · intro h place hplace haccepted part hpart
    obtain ⟨names, hnames⟩ := Option.isSome_iff_exists.mp haccepted
    obtain ⟨heq, -, hne⟩ := locationNames_some hnames
    apply (pushedName_ordinary_iff (hne part hpart)).mp
    apply h.names place hplace names hnames
    rw [heq]
    exact List.mem_map_of_mem hpart
  · intro h
    have hnames : ∀ place ∈ location, ∀ names, locationNames place = some names →
        ∀ name ∈ names, Ordinary name := by
      intro place hplace names hnames name hname
      obtain ⟨heq, -, hne⟩ := locationNames_some hnames
      rw [heq] at hname
      obtain ⟨part, hpart, rfl⟩ := List.mem_map.mp hname
      exact (pushedName_ordinary_iff (hne part hpart)).mpr
        (h place hplace (by rw [hnames]; rfl) part hpart)
    refine ⟨fun g destination => ?_, hnames, safeProjectFileName_ordinary requested format⟩
    have hfile : ∀ name, components g (safeProjectFileName name format) =
        [.normal (safeProjectFileName name format)] := fun name =>
      (safeProjectFileName_plain name format).components (safeProjectFileName_ordinary name format) g
    rw [restoreTarget]
    simp only [hfile]
    generalize (fileStem (components g requested)).getD "Restored Project" = stem
    have hfallback : StrictlyBelow destination (restoreRootCandidate g destination
        [.normal (safeProjectFileName stem format)] commitId) := by
      obtain ⟨folder, -, heq⟩ :=
        candidate_eq g destination (safeProjectFileName_plain stem format) commitId
      rw [heq]
      exact @strictlyBelow_append destination [folder] (by simp)
    cases location with
    | none => exact hfallback
    | some place =>
      cases hplace : locationNames place with
      | none =>
        rw [restoreRootFor, Option.bind_some, safeRestoreLocation, hplace]
        exact hfallback
      | some names =>
        obtain ⟨folders, hne, heq⟩ := restoreRootFor_eq g destination hplace
          (hnames place rfl names hplace) [.normal (safeProjectFileName stem format)] commitId
        rw [heq]
        exact strictlyBelow_append destination hne

def sampleCommit : ContentHash := ⟨List.replicate 32 171, by simp⟩

/-- A part of dots and white space becomes the parent folder. -/
theorem dotted_location_escapes :
    locationNames ⟨". .. ./Song"⟩ = some ["..", "Song"] ∧
      ¬StrictlyBelow [.rootDir, .normal "Restored"]
        (restoreTarget .posix [.rootDir, .normal "Restored"] "Song" .abletonLiveSet
          (some ⟨". .. ./Song"⟩) sampleCommit) := by
  have hnames : locationNames ⟨". .. ./Song"⟩ = some ["..", "Song"] := by decide +kernel
  refine ⟨hnames, ?_⟩
  obtain ⟨folder, -, heq⟩ := candidate_eq .posix [.rootDir, .normal "Restored", .parentDir]
    (show Plain "Song".toList by decide) sampleCommit
  have hrelative : safeRestoreLocation .posix ⟨". .. ./Song"⟩ =
      some [.parentDir, .normal "Song"] := by
    rw [safeRestoreLocation, hnames]
    decide
  have hsong : components .posix "Song" = [.normal "Song"] := by decide
  rw [restoreTarget]
  simp only [restoreRootFor, Option.bind_some, hrelative]
  change ¬StrictlyBelow _ (restoreRootCandidate .posix
    [.rootDir, .normal "Restored", .parentDir] (components .posix "Song") sampleCommit)
  rw [hsong, heq]
  intro ⟨names, hne, hbelow⟩
  cases names with
  | nil => exact hne rfl
  | cons name names => cases hbelow

end Restore

end AuruPm
