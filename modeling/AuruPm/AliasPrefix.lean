import AuruPm.FlStream

/-!
# Prefixes of path aliases

An alias is for the paths that are its prefix or go on after it with a separator. Live compares
that many bytes of the path without regard to case, and FL Studio the characters with one kind of
slash; neither looks at what follows. The paths on which they do and do not answer as such an
alias are named here.
-/

namespace AuruPm

set_option autoImplicit false

namespace Ableton

/-! Bytes of a text. -/

theorem byteLength_append (a b : List Char) :
    byteLength (a ++ b) = byteLength a + byteLength b := by
  simp [byteLength]

theorem byteLength_cons (c : Char) (text : List Char) :
    byteLength (c :: text) = c.utf8Size + byteLength text := by
  simp [byteLength]

/-- A text is cut after some of its characters. -/
theorem splitBytes_eq_some_iff {n : Nat} {text start rest : List Char} :
    splitBytes n text = some (start, rest) ↔ text = start ++ rest ∧ byteLength start = n := by
  induction text generalizing n start with
  | nil =>
    cases n with
    | zero =>
      cases start with
      | nil => simp [splitBytes, byteLength, eq_comm]
      | cons c start => simp [splitBytes]
    | succ n =>
      simp only [splitBytes, reduceCtorEq, false_iff]
      rintro ⟨happend, hlength⟩
      obtain ⟨rfl, _⟩ := List.append_eq_nil_iff.mp happend.symm
      cases hlength
  | cons c text ih =>
    have hpos := c.utf8Size_pos
    cases n with
    | zero =>
      cases start with
      | nil => simp [splitBytes, byteLength, eq_comm]
      | cons d start =>
        have hd := d.utf8Size_pos
        simp only [splitBytes, Option.some.injEq, Prod.mk.injEq, List.nil_eq, reduceCtorEq,
          false_and, byteLength_cons, false_iff, not_and]
        omega
    | succ n =>
      rw [splitBytes]
      cases start with
      | nil =>
        constructor
        · intro h
          split at h
          · obtain ⟨_, _, hpair⟩ := Option.map_eq_some_iff.mp h
            cases hpair
          · cases h
        · rintro ⟨_, hlength⟩
          cases hlength
      | cons d start =>
        rw [byteLength_cons]
        constructor
        · intro h
          split at h
          · obtain ⟨⟨a, b⟩, hsplit, hpair⟩ := Option.map_eq_some_iff.mp h
            cases hpair
            obtain ⟨rfl, hlength⟩ := ih.mp hsplit
            exact ⟨rfl, by omega⟩
          · cases h
        · rintro ⟨happend, hlength⟩
          cases happend
          rw [if_pos (by omega), ih.mpr ⟨rfl, by omega⟩]
          rfl

/-- Or inside one. -/
theorem splitBytes_eq_none_iff {n : Nat} {text : List Char} (h : n ≤ byteLength text) :
    splitBytes n text = none ↔ ∃ start c rest, text = start ++ c :: rest ∧
      byteLength start < n ∧ n < byteLength start + c.utf8Size := by
  induction text generalizing n with
  | nil =>
    obtain rfl : n = 0 := Nat.le_zero.mp h
    simp [splitBytes]
  | cons c text ih =>
    cases n with
    | zero => simp [splitBytes]
    | succ n =>
      rw [byteLength_cons] at h
      rw [splitBytes]
      split
      · rename_i hle
        rw [Option.map_eq_none_iff, ih (by omega)]
        constructor
        · intro ⟨start, d, rest, htext, hlow, hhigh⟩
          refine ⟨c :: start, d, rest, by rw [htext]; rfl, ?_, ?_⟩
          · rw [byteLength_cons]
            omega
          · rw [byteLength_cons]
            omega
        · intro ⟨start, d, rest, htext, hlow, hhigh⟩
          cases start with
          | nil =>
            cases htext
            rw [byteLength, List.map_nil, List.sum_nil] at hhigh
            omega
          | cons e start =>
            cases htext
            rw [byteLength_cons] at hlow hhigh
            exact ⟨start, d, rest, rfl, by omega, by omega⟩
      · rename_i hlt
        refine iff_of_true rfl ⟨[], c, text, rfl, ?_, ?_⟩
        · exact Nat.succ_pos n
        · rw [byteLength, List.map_nil, List.sum_nil]
          omega

theorem utf8Size_toLower (c : Char) : c.toLower.utf8Size = c.utf8Size := by
  unfold Char.toLower
  split
  · rename_i h
    have hlow : c.val.toNat ≤ 90 := UInt32.le_iff_toNat_le.mp h.2
    have hsum : (c.val + ('a'.val - 'A'.val)).toNat ≤ 127 := by
      rw [UInt32.toNat_add]
      have hdiff : ('a'.val - 'A'.val).toNat = 32 := by decide
      omega
    rw [Char.utf8Size_eq_one_iff.mpr (UInt32.le_iff_toNat_le.mpr hsum),
      Char.utf8Size_eq_one_iff.mpr (UInt32.le_iff_toNat_le.mpr (Nat.le_trans hlow (by decide)))]
  · rfl

theorem byteLength_toLower (text : List Char) :
    byteLength (text.map Char.toLower) = byteLength text := by
  rw [byteLength, byteLength, List.map_map]
  exact congrArg List.sum (List.map_congr_left fun c _ => utf8Size_toLower c)

/-! Covering. -/

/-- A prefix without the separators at its end. -/
def PathAlias.trimmed (a : PathAlias) : List Char :=
  (a.fromPrefix.toList.reverse.dropWhile isAnySlash).reverse

/-- A character without regard to case and to the kind of separator. -/
def foldChar (c : Char) : Char := if c.toLower = '\\' then '/' else c.toLower

def AtBoundary (rest : List Char) : Prop := ∀ c ∈ rest.head?, isAnySlash c = true

/-- The path is the prefix, or goes on after it with a separator. -/
def PathAlias.Covers (a : PathAlias) (path : String) : Prop :=
  ∃ start rest, path.toList = start ++ rest ∧
    start.map foldChar = a.trimmed.map foldChar ∧ AtBoundary rest

/-- The prefix is as long as some characters of the path and a part of the next one. -/
def PathAlias.CutsCharacter (a : PathAlias) (path : String) : Prop :=
  ∃ start c rest, path.toList = start ++ c :: rest ∧ byteLength start < byteLength a.trimmed ∧
    byteLength a.trimmed < byteLength start + c.utf8Size

/-- The prefix ends inside a name of the path, as of a folder beside the one it means. -/
def PathAlias.EndsInName (a : PathAlias) (path : String) : Prop :=
  ∃ start c rest, path.toList = start ++ c :: rest ∧
    start.map Char.toLower = a.trimmed.map Char.toLower ∧ isAnySlash c = false

/-- The path has another kind of separator somewhere in the prefix. -/
def PathAlias.OtherSeparators (a : PathAlias) (path : String) : Prop :=
  ∃ start rest, path.toList = start ++ rest ∧ start.map foldChar = a.trimmed.map foldChar ∧
    start.map Char.toLower ≠ a.trimmed.map Char.toLower ∧ AtBoundary rest

theorem fold_of_toLower {a b : List Char} (h : a.map Char.toLower = b.map Char.toLower) :
    a.map foldChar = b.map foldChar := by
  have hfold : ∀ text : List Char, text.map foldChar =
      (text.map Char.toLower).map fun c => if c = '\\' then '/' else c := by
    intro text
    rw [List.map_map]
    rfl
  rw [hfold, hfold, h]

/-- The path begins with the prefix but for case. -/
def PathAlias.Begins (a : PathAlias) (path : String) : Prop :=
  ∃ start rest, path.toList = start ++ rest ∧
    start.map Char.toLower = a.trimmed.map Char.toLower

theorem byteLength_of_toLower {a b : List Char} (h : a.map Char.toLower = b.map Char.toLower) :
    byteLength a = byteLength b := by
  rw [← byteLength_toLower a, h, byteLength_toLower]

theorem apply_eq (a : PathAlias) (path : String) : a.apply path =
    if byteLength path.toList < byteLength a.trimmed then .ok none
    else
      match splitBytes (byteLength a.trimmed) path.toList with
      | none => .error .charBoundary
      | some (start, rest) =>
        if start.map Char.toLower ≠ a.trimmed.map Char.toLower then .ok none
        else .ok (some (a.toFolder.join
          (HostPath.ofRecorded (String.ofList (rest.dropWhile isAnySlash))))) := rfl

/-- The three ways an alias answers. -/
theorem apply_cases (a : PathAlias) (path : String) :
    (a.apply path = .error .charBoundary ∧ a.CutsCharacter path) ∨
      (a.apply path = .ok none ∧ ¬ a.CutsCharacter path ∧ ¬ a.Begins path) ∨
      (∃ found, a.apply path = .ok (some found)) ∧ ¬ a.CutsCharacter path ∧ a.Begins path := by
  have hbegins : a.Begins path → byteLength a.trimmed ≤ byteLength path.toList := by
    rintro ⟨start, rest, hpath, hstart⟩
    rw [hpath, byteLength_append, byteLength_of_toLower hstart]
    omega
  have hcuts : a.CutsCharacter path → byteLength a.trimmed ≤ byteLength path.toList := by
    rintro ⟨start, c, rest, hpath, _, hhigh⟩
    rw [hpath, byteLength_append, byteLength_cons]
    omega
  rw [apply_eq]
  by_cases hshort : byteLength path.toList < byteLength a.trimmed
  · rw [if_pos hshort]
    exact .inr (.inl ⟨rfl, fun h => Nat.not_le.mpr hshort (hcuts h),
      fun h => Nat.not_le.mpr hshort (hbegins h)⟩)
  · rw [if_neg hshort]
    cases hsplit : splitBytes (byteLength a.trimmed) path.toList with
    | none => exact .inl ⟨rfl, (splitBytes_eq_none_iff (by omega)).mp hsplit⟩
    | some parts =>
      obtain ⟨start, rest⟩ := parts
      obtain ⟨hpath, hlength⟩ := splitBytes_eq_some_iff.mp hsplit
      have hwhole : ¬ a.CutsCharacter path := by
        intro h
        rw [(splitBytes_eq_none_iff (hcuts h)).mpr h] at hsplit
        cases hsplit
      by_cases hstart : start.map Char.toLower = a.trimmed.map Char.toLower
      · refine .inr (.inr ⟨⟨_, if_neg (not_not.mpr hstart)⟩, hwhole, start, rest, hpath, hstart⟩)
      · refine .inr (.inl ⟨if_pos hstart, hwhole, ?_⟩)
        rintro ⟨start', rest', hpath', hstart'⟩
        have hcut := splitBytes_eq_some_iff.mpr ⟨hpath', byteLength_of_toLower hstart'⟩
        rw [hsplit] at hcut
        cases hcut
        exact hstart hstart'

theorem begins_iff_covers {a : PathAlias} {path : String} :
    (a.Begins path ↔ a.Covers path) ↔ ¬ a.EndsInName path ∧ ¬ a.OtherSeparators path := by
  constructor
  · intro h
    constructor
    · intro ⟨start, c, rest, hpath, hstart, hslash⟩
      obtain ⟨start', rest', hpath', hstart', hboundary⟩ := h.mp ⟨start, c :: rest, hpath, hstart⟩
      have hlength : start.length = start'.length := by
        have := congrArg List.length ((fold_of_toLower hstart).trans hstart'.symm)
        simpa using this
      obtain ⟨_, rfl⟩ := List.append_inj (hpath.symm.trans hpath') hlength
      rw [hboundary c rfl] at hslash
      cases hslash
    · intro ⟨start, rest, hpath, hfold, hother, hboundary⟩
      obtain ⟨start', rest', hpath', hstart'⟩ := h.mpr ⟨start, rest, hpath, hfold, hboundary⟩
      have hlength : start.length = start'.length := by
        have := congrArg List.length (hfold.trans (fold_of_toLower hstart').symm)
        simpa using this
      obtain ⟨rfl, _⟩ := List.append_inj (hpath.symm.trans hpath') hlength
      exact hother hstart'
  · intro ⟨hname, hother⟩
    constructor
    · intro ⟨start, rest, hpath, hstart⟩
      refine ⟨start, rest, hpath, fold_of_toLower hstart, ?_⟩
      intro c hc
      cases rest with
      | nil => cases hc
      | cons d rest =>
        cases hc
        cases hslash : isAnySlash c with
        | true => rfl
        | false => exact absurd ⟨start, c, rest, hpath, hstart, hslash⟩ hname
    · intro ⟨start, rest, hpath, hfold, hboundary⟩
      by_cases hstart : start.map Char.toLower = a.trimmed.map Char.toLower
      · exact ⟨start, rest, hpath, hstart⟩
      · exact absurd ⟨start, rest, hpath, hfold, hstart, hboundary⟩ hother

/-- An alias of Live answers a path as one for whole components. -/
def PathAlias.AnswersWell (a : PathAlias) (path : String) : Prop :=
  ∃ found, a.apply path = .ok found ∧ (found.isSome = true ↔ a.Covers path)

theorem answersWell_iff {a : PathAlias} {path : String} :
    a.AnswersWell path ↔
      ¬ a.CutsCharacter path ∧ ¬ a.EndsInName path ∧ ¬ a.OtherSeparators path := by
  rw [← begins_iff_covers]
  rcases apply_cases a path with
    ⟨happly, hcuts⟩ | ⟨happly, hwhole, hbegins⟩ | ⟨⟨found, happly⟩, hwhole, hbegins⟩
  · constructor
    · intro ⟨_, hfound, _⟩
      rw [happly] at hfound
      cases hfound
    · exact fun h => absurd hcuts h.1
  · constructor
    · intro ⟨result, hresult, hcovers⟩
      rw [happly] at hresult
      cases hresult
      exact ⟨hwhole, iff_of_false hbegins fun h => nomatch hcovers.mpr h⟩
    · intro ⟨_, hiff⟩
      exact ⟨none, happly, iff_of_false nofun fun h => hbegins (hiff.mpr h)⟩
  · constructor
    · intro ⟨result, hresult, hcovers⟩
      rw [happly] at hresult
      cases hresult
      exact ⟨hwhole, iff_of_true hbegins (hcovers.mp rfl)⟩
    · intro ⟨_, hiff⟩
      exact ⟨some found, happly, iff_of_true rfl (hiff.mp hbegins)⟩

end Ableton

namespace FlStudio

open Ableton (PathAlias AtBoundary foldChar)

/-! Rooted texts. -/

theorem ofSegment_ne_rootDir {segment : String} {c : Component}
    (h : HostPath.ofSegment segment = some c) : c ≠ .rootDir := by
  unfold HostPath.ofSegment at h
  split at h
  · cases h
  · split at h
    · cases h
      exact nofun
    · cases h
      exact nofun

theorem ofText_rooted {text : String} (h : text.toList.head? = some '/') :
    (HostPath.ofText text).head? = some .rootDir := by
  obtain ⟨rest, htext⟩ := List.head?_eq_some_iff.mp h
  have hsegments : segments isSlash text =
      "" :: (rest.splitOnP isSlash).map String.ofList := by
    rw [segments, htext, List.splitOnP_cons_eq_if_modifyHead, if_pos (by decide)]
    rfl
  have hne : (rest.splitOnP isSlash).map String.ofList ≠ [] := by
    rw [ne_eq, List.map_eq_nil_iff]
    exact List.splitOnP_ne_nil _ _
  rw [HostPath.ofText, hsegments]
  cases hrest : (rest.splitOnP isSlash).map String.ofList with
  | nil => exact absurd hrest hne
  | cons first more => rfl

theorem ofText_relative {text : String} (h : text.toList.head? ≠ some '/') :
    (HostPath.ofText text).head? ≠ some .rootDir := by
  have hparts : ∀ rest : List String, .rootDir ∉ rest.filterMap HostPath.ofSegment := by
    intro rest hmem
    obtain ⟨_, _, hsegment⟩ := List.mem_filterMap.mp hmem
    exact ofSegment_ne_rootDir hsegment rfl
  intro hroot
  unfold HostPath.ofText at hroot
  split at hroot
  · cases hroot
  · cases hroot
  · rename_i rest hne hsegments
    cases htext : text.toList with
    | nil =>
      rw [segments, htext, List.splitOnP_nil] at hsegments
      cases hsegments
      exact hne rfl
    | cons c tail =>
      rw [htext] at h
      have hslash : isSlash c = false := by
        rw [isSlash, decide_eq_false_iff_not]
        rintro rfl
        exact h rfl
      rw [segments, htext, List.splitOnP_cons_eq_if_modifyHead, if_neg (by rw [hslash]; exact nofun)]
        at hsegments
      cases hsplit : tail.splitOnP isSlash with
      | nil => exact List.splitOnP_ne_nil _ _ hsplit
      | cons first more =>
        rw [hsplit] at hsegments
        have hfirst := (List.cons.inj hsegments).1
        rw [← String.toList_inj, String.toList_ofList] at hfirst
        cases hfirst
  · cases hroot
  · have hmem := List.mem_of_head? hroot
    rcases List.mem_append.mp hmem with hmem | hmem
    · exact ofSegment_ne_rootDir (Option.mem_toList.mp hmem) rfl
    · exact hparts _ hmem

/-! Translating. -/

/-- Whether the aliases put a path in a folder of theirs: where it is depends on the folder. -/
def AssetRef.Translates (r : AssetRef) (aliases : List PathAlias) : Prop :=
  ∃ folder, r.localPath (aliases.map fun a => { a with toFolder := folder }) ≠ r.localPath []

/-- The path begins with the prefix as it is written, but for the kind of separators. -/
def Spelled (a : PathAlias) (path : String) : Prop :=
  normalizeSeparators a.fromPrefix <+: normalizeSeparators path

theorem localPath_eq (r : AssetRef) (aliases : List PathAlias) :
    r.localPath aliases =
      match aliases.find? fun a =>
        (normalizeSeparators a.fromPrefix).isPrefixOf (normalizeSeparators r.expandedPath) with
      | some a =>
        some (a.toFolder.join (.ofText (String.ofList
          (((normalizeSeparators r.expandedPath).drop
            (normalizeSeparators a.fromPrefix).length).dropWhile (· = '/')))))
      | none => r.localPath [] := rfl

/-- A relative path keeps to the folder that it is put in. -/
theorem join_parentDir {path : HostPath} (h : path.head? ≠ some .rootDir) :
    (HostPath.join [.parentDir] path).head? = some .parentDir := by
  unfold HostPath.join
  split
  · exact absurd rfl h
  · rfl
  · rfl

theorem localPath_nil {r : AssetRef} {path : HostPath} (h : r.localPath [] = some path) :
    path.head? = some .rootDir := by
  have hnil : r.localPath [] =
      if Ableton.startsWith "/" r.expandedPath then some (.ofText r.expandedPath) else none := rfl
  rw [hnil] at h
  split at h
  · rename_i hrooted
    cases h
    obtain ⟨rest, hrest⟩ := List.isPrefixOf_iff_prefix.mp hrooted
    exact ofText_rooted (by rw [← hrest]; rfl)
  · cases h

theorem translates_iff {r : AssetRef} {aliases : List PathAlias} :
    r.Translates aliases ↔ ∃ a ∈ aliases, Spelled a r.expandedPath := by
  constructor
  · intro ⟨folder, hfolder⟩
    apply Classical.byContradiction
    intro hnone
    apply hfolder
    rw [localPath_eq, List.find?_eq_none.mpr]
    intro a ha hfits
    obtain ⟨b, hb, rfl⟩ := List.mem_map.mp ha
    exact hnone ⟨b, hb, List.isPrefixOf_iff_prefix.mp hfits⟩
  · intro ⟨a, ha, hspelled⟩
    refine ⟨[.parentDir], ?_⟩
    rw [localPath_eq]
    cases hfind : (aliases.map fun a => { a with toFolder := [.parentDir] }).find? fun a =>
        (normalizeSeparators a.fromPrefix).isPrefixOf (normalizeSeparators r.expandedPath) with
    | none =>
      have hfits := List.find?_eq_none.mp hfind _ (List.mem_map_of_mem ha)
      exact absurd (List.isPrefixOf_iff_prefix.mpr hspelled) hfits
    | some found =>
      obtain ⟨b, _, rfl⟩ := List.mem_map.mp (List.mem_of_find?_eq_some hfind)
      intro hsame
      have hroot := localPath_nil hsame.symm
      rw [join_parentDir] at hroot
      · cases hroot
      · apply ofText_relative
        rw [String.toList_ofList]
        intro hslash
        have hdropped := List.head?_dropWhile_not (fun c => decide (c = '/'))
          ((normalizeSeparators r.expandedPath).drop (normalizeSeparators b.fromPrefix).length)
        rw [hslash] at hdropped
        cases hdropped

/-- The prefix, which ends in no separator, ends inside a name of the path. -/
def NamedBeside (a : PathAlias) (path : String) : Prop :=
  ∃ start c rest, path.toList = start ++ c :: rest ∧
    normalizeSeparators (String.ofList start) = normalizeSeparators a.fromPrefix ∧
    a.trimmed = a.fromPrefix.toList ∧ isAnySlash c = false

theorem fold_of_normalizeSeparators {a b : String}
    (h : normalizeSeparators a = normalizeSeparators b) :
    a.toList.map foldChar = b.toList.map foldChar := by
  have hfold : ∀ text : String, text.toList.map foldChar =
      (normalizeSeparators text).map foldChar := by
    intro text
    rw [normalizeSeparators, List.map_map]
    apply List.map_congr_left
    intro c _
    rw [Function.comp_apply]
    split
    · rename_i hc
      rw [hc]
      decide
    · rfl
  rw [hfold, hfold, h]

theorem spelled_iff {a : PathAlias} {path : String} :
    Spelled a path ↔ ∃ start rest, path.toList = start ++ rest ∧
      normalizeSeparators (String.ofList start) = normalizeSeparators a.fromPrefix := by
  constructor
  · intro ⟨tail, htail⟩
    obtain ⟨start, rest, hpath, hstart, _⟩ := List.map_eq_append_iff.mp htail.symm
    exact ⟨start, rest, hpath, by rw [← hstart, normalizeSeparators, String.toList_ofList]⟩
  · intro ⟨start, rest, hpath, hstart⟩
    rw [Spelled, ← hstart, normalizeSeparators, normalizeSeparators, String.toList_ofList, hpath,
      List.map_append]
    exact List.prefix_append _ _

theorem trimmed_append (a : PathAlias) : ∃ ending, a.fromPrefix.toList = a.trimmed ++ ending ∧
    ∀ c ∈ ending, isAnySlash c = true := by
  refine ⟨(a.fromPrefix.toList.reverse.takeWhile isAnySlash).reverse, ?_, ?_⟩
  · rw [PathAlias.trimmed, ← List.reverse_append, List.takeWhile_append_dropWhile,
      List.reverse_reverse]
  · intro c hc
    exact List.mem_takeWhile_imp (List.mem_reverse.mp hc)

theorem slash_of_fold {c d : Char} (h : foldChar c = foldChar d) (hd : isAnySlash d = true) :
    isAnySlash c = true := by
  have hlower : ∀ slash : Char, slash = '/' ∨ slash = '\\' → c.toLower = slash → c = slash := by
    intro slash hslash hc
    unfold Char.toLower at hc
    split at hc
    · rename_i hupper
      have hlow : 65 ≤ c.val.toNat := UInt32.le_iff_toNat_le.mp hupper.1
      have hhigh : c.val.toNat ≤ 90 := UInt32.le_iff_toNat_le.mp hupper.2
      have hval := congrArg (fun d : Char => d.val.toNat) hc
      have hdiff : ('a'.val - 'A'.val).toNat = 32 := by decide
      simp only [UInt32.toNat_add, hdiff] at hval
      have hcode : slash.val.toNat = 47 ∨ slash.val.toNat = 92 := by
        rcases hslash with rfl | rfl
        · exact .inl rfl
        · exact .inr rfl
      omega
    · exact hc
  have hfold : foldChar c = '/' := by
    rw [h]
    simp only [isAnySlash, Bool.or_eq_true, decide_eq_true_eq] at hd
    rcases hd with rfl | rfl
    · decide
    · decide
  unfold foldChar at hfold
  split at hfold
  · rename_i hback
    rw [hlower _ (.inr rfl) hback]
    decide
  · rw [hlower _ (.inl rfl) hfold]
    decide

theorem covers_or_namedBeside {a : PathAlias} {path : String} (h : Spelled a path) :
    a.Covers path ∨ NamedBeside a path := by
  obtain ⟨start, rest, hpath, hstart⟩ := spelled_iff.mp h
  have hfold := fold_of_normalizeSeparators hstart
  obtain ⟨ending, hprefix, hending⟩ := trimmed_append a
  rw [String.toList_ofList, hprefix, List.map_append] at hfold
  obtain ⟨name, slashes, rfl, hname, hslashes⟩ := List.map_eq_append_iff.mp hfold
  cases ending with
  | cons e ending =>
    cases slashes with
    | nil => cases hslashes
    | cons d slashes =>
      refine .inl ⟨name, d :: slashes ++ rest, by rw [hpath, List.append_assoc], hname, ?_⟩
      intro c hc
      cases hc
      exact slash_of_fold (List.cons.inj hslashes).1 (hending e List.mem_cons_self)
  | nil =>
    obtain rfl : slashes = [] := List.map_eq_nil_iff.mp hslashes
    rw [List.append_nil] at hpath hstart hprefix
    cases rest with
    | nil => exact .inl ⟨name, [], hpath, hname, nofun⟩
    | cons c rest =>
      cases hslash : isAnySlash c with
      | true =>
        refine .inl ⟨name, c :: rest, hpath, hname, ?_⟩
        intro d hd
        cases hd
        exact hslash
      | false => exact .inr ⟨name, c, rest, hpath, hstart, hprefix.symm, hslash⟩

theorem spelled_of_namedBeside {a : PathAlias} {path : String} (h : NamedBeside a path) :
    Spelled a path := by
  obtain ⟨start, c, rest, hpath, hstart, _, _⟩ := h
  exact spelled_iff.mpr ⟨start, c :: rest, hpath, hstart⟩

/-- FL Studio and Live agree on a path, and Live takes whole components. -/
def WholeComponents (aliases : List PathAlias) (r : AssetRef) : Prop :=
  (∀ a ∈ aliases, a.AnswersWell r.expandedPath) ∧
    (r.Translates aliases ↔ ∃ a ∈ aliases, ∃ found, a.apply r.expandedPath = .ok (some found))

theorem wholeComponents_iff (aliases : List PathAlias) (r : AssetRef) :
    WholeComponents aliases r ↔
      (∀ a ∈ aliases, ¬ a.CutsCharacter r.expandedPath ∧ ¬ a.EndsInName r.expandedPath ∧
        ¬ a.OtherSeparators r.expandedPath) ∧
      (∀ a ∈ aliases, NamedBeside a r.expandedPath → ∃ b ∈ aliases, b.Covers r.expandedPath) ∧
      (∀ a ∈ aliases, a.Covers r.expandedPath → ∃ b ∈ aliases, Spelled b r.expandedPath) := by
  have happlies : (∀ a ∈ aliases, a.AnswersWell r.expandedPath) →
      ((∃ a ∈ aliases, ∃ found, a.apply r.expandedPath = .ok (some found)) ↔
        ∃ a ∈ aliases, a.Covers r.expandedPath) := by
    intro hwell
    constructor
    · intro ⟨a, ha, found, hfound⟩
      obtain ⟨result, hresult, hcovers⟩ := hwell a ha
      rw [hfound] at hresult
      cases hresult
      exact ⟨a, ha, hcovers.mp rfl⟩
    · intro ⟨a, ha, hcovers⟩
      obtain ⟨result, hresult, hiff⟩ := hwell a ha
      obtain ⟨found, rfl⟩ := Option.isSome_iff_exists.mp (hiff.mpr hcovers)
      exact ⟨a, ha, found, hresult⟩
  have hlive : (∀ a ∈ aliases, a.AnswersWell r.expandedPath) ↔
      ∀ a ∈ aliases, ¬ a.CutsCharacter r.expandedPath ∧ ¬ a.EndsInName r.expandedPath ∧
        ¬ a.OtherSeparators r.expandedPath :=
    forall_congr' fun a => imp_congr_right fun _ => Ableton.answersWell_iff
  rw [WholeComponents, ← hlive]
  apply and_congr_right
  intro hwell
  rw [happlies hwell, translates_iff]
  constructor
  · intro h
    constructor
    · exact fun a ha hbeside => h.mp ⟨a, ha, spelled_of_namedBeside hbeside⟩
    · exact fun a ha hcovers => h.mpr ⟨a, ha, hcovers⟩
  · intro ⟨hbeside, hcovers⟩
    constructor
    · intro ⟨a, ha, hspelled⟩
      rcases covers_or_namedBeside hspelled with hcovered | hnamed
      · exact ⟨a, ha, hcovered⟩
      · exact hbeside a ha hnamed
    · exact fun ⟨a, ha, hcovered⟩ => hcovers a ha hcovered

/-- A folder whose name has a letter of two bytes, and a folder beside the one of an alias. -/
theorem alias_beyond_components :
    (⟨"E:/M", [.rootDir]⟩ : PathAlias).apply "E:/é/a.wav" = .error .charBoundary ∧
      (⟨"E:/Music", [.rootDir]⟩ : PathAlias).apply "E:/MusicOld/a.wav" =
        .ok (some [.rootDir, .normal (.text "Old"), .normal (.text "a.wav")]) ∧
      ¬ WholeComponents [⟨"E:/M", [.rootDir]⟩] ⟨"E:/é/a.wav", "E:/é/a.wav", .external, 0⟩ := by
  have hcut : (⟨"E:/M", [.rootDir]⟩ : PathAlias).apply "E:/é/a.wav" = .error .charBoundary := by
    decide +kernel
  refine ⟨hcut, by decide +kernel, ?_⟩
  intro ⟨hwell, _⟩
  obtain ⟨found, hfound, _⟩ := hwell _ List.mem_cons_self
  rw [hcut] at hfound
  cases hfound

end FlStudio

end AuruPm
