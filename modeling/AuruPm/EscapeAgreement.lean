import AuruPm.AliasPrefix
import AuruPm.Lib.LexicalPath
import Mathlib.Data.List.Infix

/-!
# Leaving the project folder

Whether a recorded path leaves the project folder is decided twice: by counting its segments, and
by where it leads when it is joined to the folder and folded. The two agree on paths without
backslashes, apart from absolute ones.
-/

namespace AuruPm

set_option autoImplicit false

namespace Ableton

/-- One component folded in. -/
def foldStep (out : HostPath) (component : Component) : HostPath :=
  match component with
  | .parentDir => out.pop
  | .curDir => out
  | component => out.join [component]

theorem normalize_eq (path : HostPath) : path.normalize = path.foldl foldStep [] := rfl

/-- Where the steps lead from the project folder. -/
def reached (folder steps : HostPath) : HostPath := (folder.join steps).normalize

/-- The path is outside the folder at its end, or somewhere on the way. -/
def LeavesFolder (folder : HostPath) (recorded : String) : Prop :=
  ∃ steps, steps <+: HostPath.ofRecorded recorded ∧
    (reached folder steps).startsWith folder.normalize = false

/-- The folder is no root. -/
def Named (folder : HostPath) : Prop := folder.normalize.fileName.isSome

/-! Somewhere on the way. -/

section OnTheWay
variable {S C : Type} (step : S → C → S) (bad : S → Bool)

/-- Some of the states on the way is bad. -/
def OnTheWay (s : S) (path : List C) : Prop := ∃ steps, steps <+: path ∧ bad (steps.foldl step s)

variable {step bad}

theorem onTheWay_nil {s : S} : OnTheWay step bad s [] ↔ bad s := by
  constructor
  · rintro ⟨steps, hsteps, hbad⟩
    rw [List.prefix_nil.mp hsteps] at hbad
    exact hbad
  · exact fun hbad => ⟨[], List.prefix_rfl, hbad⟩

theorem onTheWay_cons {s : S} {c : C} {path : List C} :
    OnTheWay step bad s (c :: path) ↔ bad s ∨ OnTheWay step bad (step s c) path := by
  constructor
  · rintro ⟨steps, hsteps, hbad⟩
    rcases List.prefix_cons_iff.mp hsteps with rfl | ⟨rest, rfl, hrest⟩
    · exact Or.inl hbad
    · exact Or.inr ⟨rest, hrest, hbad⟩
  · rintro (hbad | ⟨rest, hrest, hbad⟩)
    · exact ⟨[], List.nil_prefix, hbad⟩
    · exact ⟨c :: rest, List.cons_prefix_cons.mpr ⟨rfl, hrest⟩, hbad⟩

end OnTheWay

/-! Names below a folder. -/

/-- Outside this folder. -/
def leaves (base path : HostPath) : Bool := !path.startsWith base

section Below
variable {base : HostPath} (hbase : base.fileName.isSome)

theorem not_leaves_append (base names : HostPath) : leaves base (base ++ names) = false := by
  rw [leaves, HostPath.startsWith, List.isPrefixOf_iff_prefix.mpr (List.prefix_append _ _)]
  rfl

theorem pop_append_normal (path : HostPath) (name : OsName) :
    HostPath.pop (path ++ [.normal name]) = path := by
  simp [HostPath.pop, HostPath.parent]

include hbase in
theorem exists_name : ∃ parent name, base = parent ++ [.normal name] := by
  rw [HostPath.fileName] at hbase
  split at hbase
  · rename_i name hlast
    obtain ⟨parent, hparent⟩ := List.getLast?_eq_some_iff.mp hlast
    exact ⟨parent, name, hparent⟩
  · cases hbase

include hbase in
theorem leaves_pop : leaves base base.pop = true := by
  obtain ⟨parent, name, rfl⟩ := exists_name hbase
  rw [pop_append_normal, leaves, HostPath.startsWith, Bool.not_eq_true', Bool.eq_false_iff, ne_eq,
    List.isPrefixOf_iff_prefix]
  intro hprefix
  have hlength := hprefix.length_le
  rw [List.length_append, List.length_singleton] at hlength
  omega

theorem escapesFrom_skip {segment : String} {rest : List String} {depth : Nat}
    (h : segment = "" ∨ segment = ".") :
    escapesFrom depth (segment :: rest) = escapesFrom depth rest := by
  cases depth <;> rw [escapesFrom, if_pos h]

theorem escapesFrom_name {segment : String} {rest : List String} {depth : Nat}
    (hskip : ¬ (segment = "" ∨ segment = ".")) (hparent : segment ≠ "..") :
    escapesFrom depth (segment :: rest) = escapesFrom (depth + 1) rest := by
  cases depth <;> rw [escapesFrom, if_neg hskip, if_neg hparent]

include hbase in
/-- The count of segments decides whether folding them leaves the folder. -/
theorem onTheWay_iff_escapesFrom (rest : List String) (names : List OsName) :
    OnTheWay foldStep (leaves base) (base ++ names.map .normal)
        (rest.filterMap HostPath.ofSegment) ↔
      escapesFrom names.length rest = true := by
  induction rest generalizing names with
  | nil =>
    rw [List.filterMap_nil, onTheWay_nil, not_leaves_append]
    exact iff_of_false nofun nofun
  | cons segment rest ih =>
    by_cases hskip : segment = "" ∨ segment = "."
    · rw [escapesFrom_skip hskip, List.filterMap_cons, HostPath.ofSegment, if_pos hskip]
      exact ih names
    by_cases hparent : segment = ".."
    · subst hparent
      have hsegment : HostPath.ofSegment ".." = some .parentDir := rfl
      rw [List.filterMap_cons, hsegment, onTheWay_cons, not_leaves_append]
      rcases List.eq_nil_or_concat names with rfl | ⟨names, name, rfl⟩
      · refine iff_of_true (Or.inr ⟨[], List.nil_prefix, ?_⟩) rfl
        rw [List.map_nil, List.append_nil]
        exact leaves_pop hbase
      · have hpop : foldStep (base ++ (names.concat name).map .normal) .parentDir =
            base ++ names.map .normal := by
          rw [List.concat_eq_append, List.map_append, ← List.append_assoc]
          exact pop_append_normal _ name
        rw [hpop, ih, List.length_concat]
        exact or_iff_right nofun
    · have hsegment : HostPath.ofSegment segment = some (.normal (.text segment)) := by
        rw [HostPath.ofSegment, if_neg hskip, if_neg hparent]
      have hjoin : foldStep (base ++ names.map .normal) (.normal (.text segment)) =
          base ++ (names ++ [OsName.text segment]).map .normal := by
        rw [List.map_append, ← List.append_assoc]
        rfl
      rw [List.filterMap_cons, hsegment, onTheWay_cons, not_leaves_append, hjoin, ih,
        escapesFrom_name hskip hparent, List.length_append, List.length_singleton]
      exact or_iff_right nofun

end Below

/-! Recorded paths. -/

theorem segments_intercalate {parts : List String} (hne : parts ≠ [])
    (hplain : ∀ part ∈ parts, '/' ∉ part.toList) : segments isSlash ("/".intercalate parts) = parts := by
  have hsplit : ("/".intercalate parts).toList.splitOn '/' = parts.map String.toList := by
    rw [String.toList_intercalate]
    refine List.splitOn_intercalate '/' ?_ (by simpa using hne)
    intro part hpart
    obtain ⟨text, htext, rfl⟩ := List.mem_map.mp hpart
    exact hplain text htext
  have hslash : (("/".intercalate parts).toList.splitOnP isSlash) = parts.map String.toList := by
    rw [← hsplit, List.splitOn_eq_splitOnP]
    exact LexicalPath.splitOnP_congr fun c _ => rfl
  rw [segments, hslash, List.map_map]
  exact List.map_id'' (fun part => String.ofList_toList) parts

/-- A path without backslashes is that of its segments, apart from a dot at its start. -/
theorem ofRecorded_cases {recorded : String} (hback : '\\' ∉ recorded.toList) :
    HostPath.ofRecorded recorded = (segments isSlash recorded).filterMap HostPath.ofSegment ∨
      HostPath.ofRecorded recorded =
        .curDir :: (segments isSlash recorded).filterMap HostPath.ofSegment := by
  have hsame : segments isAnySlash recorded = segments isSlash recorded := by
    rw [segments, segments]
    congr 1
    apply LexicalPath.splitOnP_congr
    intro c hc
    have hne : c ≠ '\\' := fun h => hback (h ▸ hc)
    simp [isAnySlash, isSlash, hne]
  have hparts : ((segments isSlash recorded).filter (· ≠ "")).filterMap HostPath.ofSegment =
      (segments isSlash recorded).filterMap HostPath.ofSegment := by
    rw [List.filterMap_filter]
    apply List.filterMap_congr
    intro part _
    by_cases hpart : part = ""
    · subst hpart
      rfl
    · rw [if_pos (by simpa using hpart)]
  rw [HostPath.ofRecorded, hsame, ← hparts]
  have hplain : ∀ part ∈ (segments isSlash recorded).filter (· ≠ ""),
      part ≠ "" ∧ '/' ∉ part.toList := by
    intro part hpart
    obtain ⟨hmem, hne⟩ := List.mem_filter.mp hpart
    obtain ⟨text, htext, rfl⟩ := List.mem_map.mp hmem
    refine ⟨by simpa using hne, ?_⟩
    rw [String.toList_ofList]
    intro hslash
    exact absurd (LexicalPath.not_separator_of_mem htext '/' hslash) (by decide)
  generalize (segments isSlash recorded).filter (· ≠ "") = parts at hplain
  cases parts with
  | nil => exact Or.inl rfl
  | cons first rest =>
    have hsegments : segments isSlash ("/".intercalate (first :: rest)) = first :: rest :=
      segments_intercalate (List.cons_ne_nil _ _) fun part hpart => (hplain part hpart).2
    have hfirst : first ≠ "" := (hplain first List.mem_cons_self).1
    by_cases hdot : first = "."
    · subst hdot
      refine Or.inr ?_
      rw [HostPath.ofText, hsegments]
      rfl
    · refine Or.inl ?_
      rw [HostPath.ofText, hsegments]
      split
      · contradiction
      · rename_i heq
        exact absurd (List.cons.inj heq).1 hfirst
      · rename_i heq
        exact absurd (List.cons.inj heq).1 hfirst
      · rename_i heq
        exact absurd (List.cons.inj heq).1 hdot
      · rename_i first' rest' _ _ _ heq
        obtain ⟨rfl, rfl⟩ := List.cons.inj heq
        rw [List.filterMap_cons]
        cases HostPath.ofSegment first <;> rfl

theorem rootDir_notMem_ofRecorded {recorded : String} (hback : '\\' ∉ recorded.toList) :
    .rootDir ∉ HostPath.ofRecorded recorded := by
  have hsegments : .rootDir ∉ (segments isSlash recorded).filterMap HostPath.ofSegment := by
    intro hmem
    obtain ⟨_, _, hsegment⟩ := List.mem_filterMap.mp hmem
    exact FlStudio.ofSegment_ne_rootDir hsegment rfl
  rcases ofRecorded_cases hback with h | h
  · rw [h]
    exact hsegments
  · rw [h, List.mem_cons]
    exact not_or.mpr ⟨nofun, hsegments⟩

/-- The components of a recorded path are folded one by one. -/
theorem reached_eq {folder steps : HostPath} (hfolder : folder ≠ [])
    (hrelative : steps.head? ≠ some .rootDir) :
    reached folder steps = steps.foldl foldStep folder.normalize := by
  have happend : ∀ path, HostPath.normalize (folder ++ path) =
      path.foldl foldStep folder.normalize := by
    intro path
    rw [normalize_eq, List.foldl_append, ← normalize_eq]
  rw [reached]
  cases steps with
  | nil => exact happend []
  | cons first rest =>
    cases first with
    | rootDir => exact absurd rfl hrelative
    | curDir =>
      rw [HostPath.join, if_neg hfolder]
      exact happend rest
    | parentDir => exact happend _
    | normal name => exact happend _

/-! The two decisions. -/

/-- The path is absolute or names a drive. -/
def Rooted (recorded : String) : Prop :=
  recorded.toList.head? = some '/' ∨ hasWindowsDrive recorded = true

theorem leavesFolder_iff {folder : HostPath} (hnamed : Named folder) {recorded : String}
    (hback : '\\' ∉ recorded.toList) :
    LeavesFolder folder recorded ↔ escapesFrom 0 (segments isSlash recorded) = true := by
  have hfolder : folder ≠ [] := by
    rintro rfl
    exact absurd hnamed nofun
  have hway : LeavesFolder folder recorded ↔
      OnTheWay foldStep (leaves folder.normalize) folder.normalize
        (HostPath.ofRecorded recorded) := by
    have hreached : ∀ steps, steps <+: HostPath.ofRecorded recorded →
        reached folder steps = steps.foldl foldStep folder.normalize := by
      intro steps hsteps
      refine reached_eq hfolder ?_
      intro hroot
      exact rootDir_notMem_ofRecorded hback (hsteps.subset (List.mem_of_head? hroot))
    constructor
    · rintro ⟨steps, hsteps, hout⟩
      rw [hreached steps hsteps] at hout
      exact ⟨steps, hsteps, by rw [leaves, hout]; rfl⟩
    · rintro ⟨steps, hsteps, hout⟩
      refine ⟨steps, hsteps, ?_⟩
      rw [hreached steps hsteps]
      simpa [leaves] using hout
  have hcount := onTheWay_iff_escapesFrom hnamed (segments isSlash recorded) []
  rw [List.map_nil, List.append_nil, List.length_nil] at hcount
  rw [hway, ← hcount]
  rcases ofRecorded_cases hback with h | h
  · rw [h]
  · have hinside : leaves folder.normalize folder.normalize = false := by
      simpa using not_leaves_append folder.normalize []
    rw [h, onTheWay_cons, hinside]
    exact or_iff_right nofun

/-- Counting segments and folding components agree on what leaves the folder. -/
theorem escapesProjectFolder_iff {folder : HostPath} (hnamed : Named folder) {recorded : String}
    (hback : '\\' ∉ recorded.toList) :
    escapesProjectFolder recorded = true ↔ Rooted recorded ∨ LeavesFolder folder recorded := by
  rw [leavesFolder_iff hnamed hback, escapesProjectFolder, Rooted]
  by_cases hempty : recorded = ""
  · subst hempty
    exact iff_of_false nofun (by decide)
  rw [if_neg hempty]
  by_cases hrooted : recorded.toList.head? = some '/' ∨ hasWindowsDrive recorded = true
  · rw [if_pos (by simpa using hrooted)]
    exact iff_of_true rfl (Or.inl hrooted)
  · rw [if_neg (by simpa using hrooted)]
    exact (or_iff_right hrooted).symm

def songFolder : HostPath := [.rootDir, .normal (.text "music"), .normal (.text "Song Project")]

theorem named_songFolder : Named songFolder := by
  rw [Named]
  decide +kernel

theorem sample_beside_leaves :
    Rooted "../Other Project/kick.wav" ∨ LeavesFolder songFolder "../Other Project/kick.wav" :=
  (escapesProjectFolder_iff named_songFolder (by decide +kernel)).mp (by decide +kernel)

theorem leavesFolder_iff_inits {folder : HostPath} {recorded : String} :
    LeavesFolder folder recorded ↔ ∃ steps ∈ (HostPath.ofRecorded recorded).inits,
      (reached folder steps).startsWith folder.normalize = false := by
  simp only [List.mem_inits]
  exact Iff.rfl

/-- An absolute path and one with a drive, a backslash, and a project at the root. -/
theorem decisions_differ :
    (escapesProjectFolder "/kick.wav" = true ∧ ¬ LeavesFolder songFolder "/kick.wav") ∧
    (escapesProjectFolder "E:/kick.wav" = true ∧ ¬ LeavesFolder songFolder "E:/kick.wav") ∧
    (escapesProjectFolder "..\\kick.wav" = false ∧ LeavesFolder songFolder "..\\kick.wav") ∧
    (escapesProjectFolder "../kick.wav" = true ∧ ¬ LeavesFolder [.rootDir] "../kick.wav") := by
  simp only [leavesFolder_iff_inits]
  decide +kernel

end Ableton

end AuruPm
