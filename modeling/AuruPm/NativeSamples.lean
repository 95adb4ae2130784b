import AuruPm.Dawproject
import AuruPm.FlCodec
import AuruPm.NativeRestore

/-!
# The samples of a native project

When a native project is restored completely. Samples are written under names that need not differ:
two of equal contents and equal last part of their paths are one name, and the second is refused.
-/

namespace AuruPm

set_option autoImplicit false

open LexicalPath SortedAssoc

namespace Restore

/-! Names. -/

theorem extension_plain {extension : Option String}
    (h : ∀ name, extension = some name → Plain name.toList) {stem : String} (hstem : Plain stem.toList) :
    Plain (match extension with
      | some extension => stem ++ "." ++ extension
      | none => stem).toList := by
  cases extension with
  | none => exact hstem
  | some name =>
    simp only [String.toList_append]
    exact (hstem.append (by decide)).append (h name rfl)

theorem safeNativeAssetFileName_plain (recordedPath : String) (hash : ContentHash) :
    Plain (safeNativeAssetFileName recordedPath hash).toList := by
  unfold safeNativeAssetFileName
  simp only
  generalize HostPath.ofText _ = path
  have hcommit := commit_plain hash
  have hstem := safeFileComponent_plain ((HostPath.fileStem path).getD "sample")
    (show Plain "sample".toList by decide) 120
  apply extension_plain
  · intro name hname
    obtain ⟨hmap, -⟩ := Option.filter_eq_some_iff.mp hname
    obtain ⟨ext, -, rfl⟩ := Option.map_eq_some_iff.mp hmap
    exact safeFileComponent_plain ext (by decide) 24
  · rw [String.toList_append, String.toList_append]
    exact (hcommit.append (by decide)).append hstem

theorem dash_mem_name (recordedPath : String) (hash : ContentHash) :
    '-' ∈ (safeNativeAssetFileName recordedPath hash).toList := by
  unfold safeNativeAssetFileName
  simp only
  split
  · simp
  · simp

/-- A plain name is one component. -/
theorem segments_plain {name : String} (h : Plain name.toList) : segments isSlash name = [name] := by
  rw [segments, List.splitOnP_eq_singleton, List.map_singleton, String.ofList_toList]
  intro c hc
  rw [isSlash, decide_eq_false_iff_not]
  exact (h c hc).1

theorem ofSegment_ordinary {name : String} (h : Ordinary name) :
    HostPath.ofSegment name = some (.normal (.text name)) := by
  have hname := h.1
  simp only [List.mem_cons, List.not_mem_nil, or_false, not_or] at hname
  rw [HostPath.ofSegment, if_neg (not_or_intro hname.1 hname.2.1), if_neg hname.2.2]

theorem ofText_plain {name : String} (h : Plain name.toList) (hname : Ordinary name) :
    HostPath.ofText name = [.normal (.text name)] := by
  have hne := hname.1
  simp only [List.mem_cons, List.not_mem_nil, or_false, not_or] at hne
  unfold HostPath.ofText
  rw [segments_plain h]
  split
  · rename_i heq
    cases heq
  · rename_i heq
    cases heq
    exact absurd rfl hne.1
  · rename_i heq
    cases heq
    exact absurd rfl hne.1
  · rename_i heq
    cases heq
    exact absurd rfl hne.2.1
  · rename_i heq
    cases heq
    rw [ofSegment_ordinary hname]
    rfl

theorem sampleName_ordinary (recordedPath : String) (hash : ContentHash) :
    Ordinary (safeNativeAssetFileName recordedPath hash) :=
  (safeNativeAssetFileName_plain recordedPath hash).ordinary_of_mem (dash_mem_name recordedPath hash)
    (by decide)

theorem ofText_samplePath (entry : SampleEntry ContentHash) :
    HostPath.ofText (samplePath entry) =
      [.normal (.text "Samples"), .normal (.text (safeNativeAssetFileName entry.path entry.hash))] := by
  have hplain := safeNativeAssetFileName_plain entry.path entry.hash
  have hordinary := sampleName_ordinary entry.path entry.hash
  rw [samplePath]
  generalize safeNativeAssetFileName entry.path entry.hash = name at hplain hordinary
  have hsegments : segments isSlash ("Samples/" ++ name) = ["Samples", name] := by
    have htext : ("Samples/" ++ name).toList = "Samples".toList ++ '/' :: name.toList := by
      rw [String.toList_append]
      rfl
    have hletters : ("Samples".toList.all fun c => !isSlash c) = true := by decide
    rw [segments, htext, List.splitOnP_append_cons_of_forall_mem (by simpa using hletters) _ (by decide),
      List.map_cons, String.ofList_toList]
    congr 1
    exact segments_plain hplain
  unfold HostPath.ofText
  rw [hsegments]
  change [Component.normal (.text "Samples")] ++ [name].filterMap HostPath.ofSegment = _
  rw [List.filterMap_cons, ofSegment_ordinary hordinary]
  rfl

/-! The project file. -/

theorem ofText_projectFile (displayName : String) :
    HostPath.ofText (safeProjectFileName displayName .auru) =
      [.normal (.text (safeProjectFileName displayName .auru))] :=
  ofText_plain (safeProjectFileName_plain displayName .auru) (safeProjectFileName_ordinary displayName .auru)

/-- What stands after the last dot. -/
theorem rsplitDot_append {stem extension : List Char} (h : '.' ∉ extension) :
    rsplitDot (stem ++ '.' :: extension) = some (stem, extension) := by
  have hne : ∀ c ∈ extension.reverse, decide (c ≠ '.') = true := by
    intro c hc
    rw [decide_eq_true_eq]
    rintro rfl
    exact h (List.mem_reverse.mp hc)
  have hreverse : (stem ++ '.' :: extension).reverse = extension.reverse ++ '.' :: stem.reverse := by
    simp
  rw [rsplitDot, hreverse, List.dropWhile_append_of_pos hne, List.takeWhile_append_of_pos hne]
  simp

theorem safeFileComponent_ne_empty (value : String) {fallback : String} (hfallback : fallback ≠ "")
    (maxBytes : Nat) : safeFileComponent value fallback maxBytes ≠ "" := by
  unfold safeFileComponent
  split
  · exact hfallback
  · rename_i hne
    intro h
    have hlist := congrArg String.toList h
    rw [String.toList_ofList] at hlist
    exact hne hlist

theorem projectFormatOfPath_projectFile (root : HostPath) (displayName : String) :
    projectFormatOfPath (root.join (HostPath.ofText (safeProjectFileName displayName .auru))) =
      some .auru := by
  obtain ⟨stem, hstem, hname⟩ : ∃ stem : String, stem ≠ "" ∧
      safeProjectFileName displayName .auru = stem ++ "." ++ "auru" := by
    have hne := safeFileComponent_ne_empty displayName
      (show "Restored Project" ≠ "" by decide) 160
    refine ⟨_, ?_, rfl⟩
    split
    · intro h
      have := congrArg String.toList h
      rw [String.toList_append] at this
      cases this
    · exact hne
  have hsplit : HostPath.splitName (stem ++ "." ++ "auru") = (stem, some "auru") := by
    have htext : (stem ++ "." ++ "auru").toList = stem.toList ++ '.' :: "auru".toList := by
      rw [String.toList_append, String.toList_append, List.append_assoc]
      rfl
    obtain ⟨c, text, hc⟩ := List.exists_cons_of_ne_nil fun h => hstem (String.toList_injective h)
    rw [HostPath.splitName, htext, rsplitDot_append (by decide), hc]
    simp only
    rw [← hc, String.ofList_toList, String.ofList_toList]
  have hextension : pathExtension (root.join (HostPath.ofText (safeProjectFileName displayName .auru))) =
      some "auru" := by
    have hjoin : ∀ name : OsName, root.join [.normal name] = root ++ [.normal name] := fun _ => rfl
    rw [ofText_projectFile, hname, hjoin, pathExtension, HostPath.fileName, List.getLast?_append]
    simp [OsName.toStr, hsplit]
  rw [projectFormatOfPath, hextension]
  decide

/-! The samples. -/

section Samples
variable {Bytes : Type} {getBlob : ContentHash → Except String Bytes} {root : HostPath}
variable {referenced : List String}

/-- The entries that are restored. -/
def selected (referenced : List String) (entries : List (SampleEntry ContentHash)) :
    List (SampleEntry ContentHash) :=
  entries.filter fun entry => entry.path ∈ referenced

def target (root : HostPath) (entry : SampleEntry ContentHash) : HostPath :=
  root.join (HostPath.ofText (samplePath entry))

theorem join_samplePath (root : HostPath) (entry : SampleEntry ContentHash) :
    root.join (HostPath.ofText (samplePath entry)) = target root entry :=
  rfl

theorem target_eq (root : HostPath) (entry : SampleEntry ContentHash) :
    target root entry = root ++ [.normal (.text "Samples"),
      .normal (.text (safeNativeAssetFileName entry.path entry.hash))] := by
  rw [← join_samplePath, ofText_samplePath]
  rfl

attribute [irreducible] target

theorem mapError_ok_iff {α E E' : Type} {x : Except E α} {f : E → E'} {a : α} :
    x.mapError f = .ok a ↔ x = .ok a := by
  cases x <;> simp [Except.mapError]

theorem writeVerifiedNew_ok_iff {path : HostPath} {bytes : Bytes} {folder folder' : Folder Bytes} :
    writeVerifiedNew path bytes folder = .ok folder' ↔
      path ∉ folder.map Prod.fst ∧ folder' = (path, bytes) :: folder := by
  unfold writeVerifiedNew
  split
  · rename_i h
    exact iff_of_false (fun h' => by cases h') fun h' => h'.1 h
  · rename_i h
    exact ⟨fun h' => ⟨h, (Except.ok.inj h').symm⟩, fun h' => by rw [h'.2]⟩

/-- The loop ends where every name is free. -/
theorem restoreSamples_ok_iff {entries : List (SampleEntry ContentHash)} {folder folder' : Folder Bytes}
    {restored restored' : List (String × String)}
    (hblobs : ∀ entry ∈ entries, entry.path ∈ referenced → ∃ bytes, getBlob entry.hash = .ok bytes) :
    restoreSamples getBlob root referenced entries folder restored = .ok (folder', restored') ↔
      ((selected referenced entries).map (target root)).Nodup ∧
      (∀ entry ∈ selected referenced entries, target root entry ∉ folder.map Prod.fst) ∧
      folder' = ((selected referenced entries).filterMap fun entry =>
        (getBlob entry.hash).toOption.map fun bytes => (target root entry, bytes)).reverse ++ folder ∧
      restored' = (selected referenced entries).foldl
        (fun restored entry => SortedAssoc.insert entry.path (samplePath entry) restored) restored := by
  induction entries generalizing folder restored with
  | nil =>
    simp only [restoreSamples, selected, List.filter_nil, Except.ok.injEq, Prod.mk.injEq]
    simp [eq_comm]
  | cons entry rest ih =>
    have hrest := fun e he => hblobs e (List.mem_cons_of_mem _ he)
    unfold restoreSamples
    by_cases hentry : entry.path ∈ referenced
    · obtain ⟨bytes, hbytes⟩ := hblobs entry List.mem_cons_self hentry
      have hselected : selected referenced (entry :: rest) = entry :: selected referenced rest := by
        rw [selected, List.filter_cons_of_pos (by simpa using hentry), selected]
      rw [if_neg (not_not_intro hentry), hbytes, hselected]
      simp only [bind_ok_iff, mapError_ok_iff, writeVerifiedNew_ok_iff, List.map_cons,
        List.nodup_cons, List.mem_cons, forall_eq_or_imp, List.filterMap_cons, List.foldl_cons, hbytes,
        Except.toOption, Option.map_some, List.reverse_cons, List.append_assoc, List.singleton_append]
      rw [join_samplePath]
      constructor
      · rintro ⟨folder₁, ⟨hfree, hfolder₁⟩, h⟩
        subst hfolder₁
        obtain ⟨hnodup, hall, hfolder, hrestored⟩ := (ih hrest).mp h
        simp only [List.map_cons, List.mem_cons, not_or] at hall
        refine ⟨⟨?_, hnodup⟩, ⟨hfree, fun e he => (hall e he).2⟩, hfolder, hrestored⟩
        intro hmem
        obtain ⟨e, he, heq⟩ := List.mem_map.mp hmem
        exact (hall e he).1 heq
      · rintro ⟨⟨hnew, hnodup⟩, ⟨hfree, hall⟩, hfolder, hrestored⟩
        refine ⟨_, ⟨hfree, rfl⟩, (ih hrest).mpr ⟨hnodup, ?_, hfolder, hrestored⟩⟩
        intro e he
        simp only [List.map_cons, List.mem_cons, not_or]
        exact ⟨fun heq => hnew (List.mem_map.mpr ⟨e, he, heq⟩), hall e he⟩
    · have hselected : selected referenced (entry :: rest) = selected referenced rest := by
        rw [selected, List.filter_cons_of_neg (by simpa using hentry), selected]
      rw [if_pos hentry, hselected]
      exact ih hrest

/-- The paths that the clips are pointed to. -/
def restoredPaths (entries : List (SampleEntry ContentHash)) : List (String × String) :=
  entries.foldl (fun restored entry => SortedAssoc.insert entry.path (samplePath entry) restored) []

theorem restoredPath_of_get? {entries : List (SampleEntry ContentHash)} {path restored : String}
    (h : get? (restoredPaths entries) path = some restored) :
    ∃ entry ∈ entries, entry.path = path ∧ samplePath entry = restored := by
  rcases mem_foldl_insert (mem_of_get? h) with h | ⟨entry, hentry, he⟩
  · cases h
  · cases he
    exact ⟨entry, hentry, rfl, rfl⟩

theorem get?_restoredPaths {entries : List (SampleEntry ContentHash)} {entry : SampleEntry ContentHash}
    (h : entry ∈ entries) : ∃ restored, get? (restoredPaths entries) entry.path = some restored := by
  rw [← Option.isSome_iff_exists, get?_isSome_iff]
  exact key_mem_foldl_insert (Or.inr (List.mem_map_of_mem h))

/-- The files of the samples, the last one first. -/
def sampleFiles (getBlob : ContentHash → Except String Bytes) (root : HostPath)
    (entries : List (SampleEntry ContentHash)) : Folder Bytes :=
  (entries.filterMap fun entry =>
    (getBlob entry.hash).toOption.map fun bytes => (target root entry, bytes)).reverse

theorem mem_sampleFiles {entries : List (SampleEntry ContentHash)} {path : HostPath} {bytes : Bytes} :
    (path, bytes) ∈ sampleFiles getBlob root entries ↔
      ∃ entry ∈ entries, getBlob entry.hash = .ok bytes ∧ target root entry = path := by
  simp only [sampleFiles, List.mem_reverse, List.mem_filterMap, Option.map_eq_some_iff, Prod.mk.injEq]
  constructor
  · intro ⟨entry, hentry, got, hgot, hpath, hbytes⟩
    refine ⟨entry, hentry, ?_, hpath⟩
    rw [← hbytes]
    cases hblob : getBlob entry.hash with
    | ok bytes =>
      rw [hblob] at hgot
      cases hgot
      rfl
    | error e =>
      rw [hblob] at hgot
      cases hgot
  · intro ⟨entry, hentry, hblob, hpath⟩
    exact ⟨entry, hentry, bytes, by rw [hblob]; rfl, hpath, rfl⟩

theorem sampleFile_mem {entries : List (SampleEntry ContentHash)} {entry : SampleEntry ContentHash}
    {bytes : Bytes} (h : entry ∈ entries) (hbytes : getBlob entry.hash = .ok bytes) :
    (target root entry, bytes) ∈ sampleFiles getBlob root entries :=
  mem_sampleFiles.mpr ⟨entry, h, hbytes, rfl⟩

theorem sampleFiles_keys_nodup {entries : List (SampleEntry ContentHash)}
    (h : (entries.map (target root)).Nodup) : ((sampleFiles getBlob root entries).map Prod.fst).Nodup := by
  have hsublist : ((sampleFiles getBlob root entries).map Prod.fst).reverse.Sublist
      (entries.map (target root)) := by
    rw [sampleFiles, List.map_reverse, List.reverse_reverse]
    clear h
    induction entries with
    | nil => exact List.Sublist.refl _
    | cons entry rest ih =>
      rw [List.filterMap_cons]
      cases (getBlob entry.hash).toOption with
      | none => exact ih.cons _
      | some bytes => exact ih.cons_cons _
  exact List.nodup_reverse.mp (hsublist.nodup h)

/-- Among distinct keys each is found with its value. -/
theorem get?_of_nodup {K V : Type} [DecidableEq K] {m : List (K × V)} (h : (m.map Prod.fst).Nodup) {k : K}
    {v : V} (hmem : (k, v) ∈ m) : get? m k = some v := by
  induction m with
  | nil => cases hmem
  | cons e m ih =>
    obtain ⟨k', v'⟩ := e
    rw [List.map_cons, List.nodup_cons] at h
    rcases List.mem_cons.mp hmem with heq | hmem
    · cases heq
      exact get?_cons_self k v m
    · have hne : k ≠ k' := by
        intro heq
        exact h.1 (List.mem_map.mpr ⟨_, hmem, heq⟩)
      rw [get?_cons_of_ne hne]
      exact ih h.2 hmem

theorem restoredPath_empty {entries : List (SampleEntry ContentHash)}
    (h : ∀ entry ∈ entries, entry.path ≠ "") : (get? (restoredPaths entries) "").getD "" = "" := by
  cases hget : get? (restoredPaths entries) "" with
  | none => rfl
  | some restored =>
    obtain ⟨entry, hentry, hpath, -⟩ := restoredPath_of_get? hget
    exact absurd hpath (h entry hentry)

/-- Where every sample has an entry, as many paths are restored. -/
theorem length_samplePaths_le (project : Value) {entries : List (SampleEntry ContentHash)}
    (h : ∀ path ∈ samplePathsInSnapshot project, ∃ entry ∈ entries, entry.path = path) :
    (samplePathsInSnapshot project).length ≤ (restoredPaths entries).length := by
  have hnodup : (samplePathsInSnapshot project).Nodup :=
    (pairwise_keySet _).imp fun hlt => ne_of_lt hlt
  have hsubset : samplePathsInSnapshot project ⊆ (restoredPaths entries).map Prod.fst := by
    intro path hpath
    obtain ⟨entry, hentry, rfl⟩ := h path hpath
    exact key_mem_foldl_insert (Or.inr (List.mem_map_of_mem hentry))
  have hle := (List.subperm_of_subset hnodup hsubset).length_le
  rwa [List.length_map] at hle

end Samples

/-! Clips. -/

/-- The paths of all clips, as they come. -/
def clipTexts (v : Value) : List String :=
  ((arrayAt v "channels").flatMap fun channel => arrayAt channel "clips").filterMap clipPath

theorem mem_samplePaths {v : Value} {path : String} :
    path ∈ samplePathsInSnapshot v ↔ path ∈ clipTexts v ∧ path ≠ "" := by
  rw [samplePathsInSnapshot, mem_keySet, List.mem_filter, decide_eq_true_eq, clipTexts]

theorem arrayAt_mapAt (v : Value) (key : String) (f : Value → Value) :
    arrayAt (v.mapAt key (Value.mapElems f)) key = (arrayAt v key).map f := by
  rw [arrayAt, Value.get_mapAt, if_pos rfl, arrayAt]
  cases v.get key with
  | none => rfl
  | some value => cases value <;> rfl

theorem clipPath_mapAt (f : String → String) (clip : Value) :
    clipPath (clip.mapAt "data" (Value.mapAt "Audio" (Value.mapAt "file_path" (Value.mapText f)))) =
      (clipPath clip).map f := by
  rw [clipPath, Value.get_mapAt, if_pos rfl, clipPath]
  cases clip.get "data" with
  | none => rfl
  | some data =>
    rw [Option.map_some, Option.bind_some, Value.get_mapAt, if_pos rfl, Option.bind_some]
    cases data.get "Audio" with
    | none => rfl
    | some audio =>
      rw [Option.map_some, Option.bind_some, Value.get_mapAt, if_pos rfl, Option.bind_some]
      cases audio.get "file_path" with
      | none => rfl
      | some path => cases path <;> rfl

/-- The walk that changes the clips is the walk that finds them. -/
theorem clips_mapAt (f : Value → Value) (v : Value) :
    (arrayAt (v.mapAt "channels" (Value.mapElems (Value.mapAt "clips" (Value.mapElems f))))
      "channels").flatMap (fun channel => arrayAt channel "clips") =
      ((arrayAt v "channels").flatMap fun channel => arrayAt channel "clips").map f := by
  rw [arrayAt_mapAt, List.flatMap_map, List.map_flatMap]
  congr 1
  exact funext fun channel => arrayAt_mapAt channel "clips" f

theorem clipTexts_mapClipPaths (f : String → String) (v : Value) :
    clipTexts (mapClipPaths f v) = (clipTexts v).map f := by
  rw [clipTexts, mapClipPaths, clips_mapAt, List.filterMap_map, clipTexts, List.map_filterMap]
  exact List.filterMap_congr fun clip _ => clipPath_mapAt f clip

theorem outline_mapClipPaths (f : String → String) (v : Value) :
    (mapClipPaths f v).outline = v.outline := by
  unfold mapClipPaths
  apply Value.outline_mapAt
  apply Value.outline_mapElems
  apply Value.outline_mapAt
  apply Value.outline_mapElems
  apply Value.outline_mapAt
  apply Value.outline_mapAt
  apply Value.outline_mapAt
  exact Value.outline_mapText f

theorem get_mapClipPaths (f : String → String) (v : Value) {key : String} (h : key ≠ "channels") :
    (mapClipPaths f v).get key = v.get key := by
  rw [mapClipPaths, Value.get_mapAt, if_neg h]

/-! Native documents. -/

section Native
variable {Bytes : Type} {C : Codecs Bytes ContentHash}

/-- A document has no wrapper or is named after its format. -/
theorem portableSnapshotFormat_cases {v : Value} {format : Option ProjectFormat}
    (h : portableSnapshotFormat v = .ok format) :
    v.get "auru_pm_snapshot" = none ∧ format = none ∨
      ∃ named, format = some named ∧ (v.get "format").bind readFormat = some named := by
  cases format with
  | some named =>
    obtain ⟨fields, rfl, hnamed⟩ := portableSnapshotFormat_ok h
    exact Or.inr ⟨named, rfl, hnamed⟩
  | none =>
    refine Or.inl ⟨?_, rfl⟩
    unfold portableSnapshotFormat at h
    split at h
    · assumption
    · split at h
      · cases h
      · split at h
        · cases h
        · split at h
          · cases h
          · obtain ⟨_, -, h⟩ := map_ok_iff.mp h
            cases h

/-- A native document is no Live Set, and has no wrapper if it is named an FL Studio project. -/
theorem native_cases {v : Value} (h : snapshotFormat C v = .ok .auru) :
    Ableton.isAbletonSnapshot v = false ∧
      ((v.get "format").bind readFormat = some .flStudio → v.get "auru_pm_snapshot" = none) := by
  obtain ⟨format, hformat, h⟩ := bind_ok_iff.mp h
  have hauru : format.getD .auru = .auru := by
    by_contra hne
    dsimp only at h
    split at h
    · obtain ⟨p, -, h⟩ := bind_ok_iff.mp h
      obtain ⟨_, -, h⟩ := bind_ok_iff.mp h
      exact hne (Except.ok.inj h)
    · obtain ⟨p, -, h⟩ := bind_ok_iff.mp h
      obtain ⟨_, -, h⟩ := bind_ok_iff.mp h
      exact hne (Except.ok.inj h)
  rcases portableSnapshotFormat_cases hformat with ⟨hmarker, -⟩ | ⟨named, rfl, hnamed⟩
  · refine ⟨?_, fun _ => hmarker⟩
    rw [Ableton.isAbletonSnapshot, hmarker]
    rfl
  · change named = .auru at hauru
    subst hauru
    refine ⟨?_, fun hfl => ?_⟩
    · rw [Ableton.isAbletonSnapshot, Bool.and_eq_false_iff, decide_eq_false_iff_not]
      right
      intro hableton
      obtain ⟨value, hvalue, hstr⟩ := Option.bind_eq_some_iff.mp hableton
      cases value with
      | string name =>
        cases hstr
        rw [hvalue] at hnamed
        cases hnamed
      | _ => cases hstr
    · rw [hnamed] at hfl
      cases hfl

theorem native_of_unwrapped {v : Value} (h : v.get "auru_pm_snapshot" = none) :
    snapshotFormat C v = .ok .auru := by
  have hformat : portableSnapshotFormat v = .ok none := by
    rw [portableSnapshotFormat, h]
  rw [snapshotFormat, hformat]
  rfl

/-- Floats are no names of formats. -/
theorem readFormat_mapFloats (f : Rat → Rat) (v : Value) : readFormat (v.mapFloats f) = readFormat v := by
  cases v with
  | number n => cases n <;> rfl
  | object fields =>
    cases fields with
    | nil => rfl
    | cons e rest =>
      obtain ⟨name, value⟩ := e
      cases rest with
      | nil =>
        cases value with
        | number n => cases n <;> rfl
        | _ => rfl
      | cons e' rest =>
        cases value with
        | number n => cases n <;> rfl
        | _ => rfl
  | _ => rfl

end Native

/-! The whole restore. -/

section Whole
variable {Bytes : Type} {F : Formats Bytes ContentHash} {C : Codecs Bytes ContentHash}
variable {R : SourceCodecs Bytes} {getBlob : ContentHash → Except String Bytes}
variable {limit : Nat} {again : Rat → Rat}

theorem rebuild_eq {v w : Value} (h : F.decodeValue (F.encodeValue v) = .ok w) :
    ProjectSnapshot.fromSourceBytes F C R (fun v => .ok (F.encodeValue v)) .auru (F.encodeValue v) =
      .ok ⟨.auru, F.encodeValue w, []⟩ := by
  simp only [ProjectSnapshot.fromSourceBytes, encodeSource, parseJson_ok_iff.mpr h, bind, Except.bind,
    pure, Except.pure]

theorem restoreSnapshot_eq {bytes : Bytes} {path : HostPath} {folder : Folder Bytes}
    (h : projectFormatOfPath path = some .auru) :
    restoreSnapshotToPath F C ⟨.auru, bytes, []⟩ path folder = writeVerifiedNew path bytes folder := by
  rw [restoreSnapshotToPath, h]
  rfl

/-- The project file is none of the samples. -/
theorem projectFile_free (getBlob : ContentHash → Except String Bytes) (root : HostPath)
    (displayName : String) (entries : List (SampleEntry ContentHash)) :
    root.join (HostPath.ofText (safeProjectFileName displayName .auru)) ∉
      (sampleFiles getBlob root entries).map Prod.fst := by
  intro h
  obtain ⟨file, hfile, heq⟩ := List.mem_map.mp h
  obtain ⟨entry, -, -, htarget⟩ := mem_sampleFiles.mp hfile
  rw [← htarget, target_eq, ofText_projectFile] at heq
  have hlength := congrArg List.length heq
  change (root ++ _).length = (root ++ _).length at hlength
  simp at hlength

/-- The document as it is written out again. -/
theorem reparsed_mapClipPaths (hF : F.Reparses limit again) {bytes : Bytes} {project : Value}
    (hproject : F.decodeValue bytes = .ok project) (f : String → String) :
    F.decodeValue (F.encodeValue (mapClipPaths f project)) =
      .ok ((mapClipPaths f project).mapFloats again) := by
  obtain ⟨hwf, hdepth⟩ := hF.decoded bytes project hproject
  apply hF.encoded
  · rw [← Value.wf_outline, outline_mapClipPaths, Value.wf_outline, hwf]
  · rw [← Value.depth_outline, outline_mapClipPaths, Value.depth_outline]
    exact hdepth

variable {samples : ContentHash} {snapshot : ProjectSnapshot Bytes} {manifestBytes : Bytes}
variable {manifest : SampleManifest ContentHash} {project : Value}

/-- No two samples are written under one name. -/
def NamesApart (entries : List (SampleEntry ContentHash)) : Prop :=
  (entries.map fun entry => safeNativeAssetFileName entry.path entry.hash).Nodup

theorem targets_nodup_iff (root : HostPath) (entries : List (SampleEntry ContentHash)) :
    (entries.map (target root)).Nodup ↔ NamesApart entries := by
  have htarget : entries.map (target root) =
      (entries.map fun entry => safeNativeAssetFileName entry.path entry.hash).map fun name =>
        root ++ [.normal (.text "Samples"), .normal (.text name)] := by
    rw [List.map_map]
    exact List.map_congr_left fun entry _ => target_eq root entry
  rw [htarget, NamesApart]
  apply List.nodup_map_iff
  intro name name' h
  simpa using h

/-- When the restore ends well, and with what. -/
theorem restoreAuru_ok_iff (hF : F.Reparses limit again) (hsamples : getBlob samples = .ok manifestBytes)
    (hmanifest : F.decodeManifest manifestBytes = .ok manifest)
    (hproject : F.decodeValue snapshot.canonicalBytes = .ok project)
    (hblobs : ∀ entry ∈ manifest.entries, entry.path ∈ samplePathsInSnapshot project →
      ∃ bytes, getBlob entry.hash = .ok bytes) {root : HostPath} {displayName : String}
    {result : RestoreResult} {folder : Folder Bytes} :
    restoreAuru F C R getBlob samples snapshot root (safeProjectFileName displayName .auru) =
        .ok (result, folder) ↔
      let entries := selected (samplePathsInSnapshot project) manifest.entries
      let projectFile := root.join (HostPath.ofText (safeProjectFileName displayName .auru))
      NamesApart entries ∧
      result = ⟨projectFile, (restoredPaths entries).length,
        (samplePathsInSnapshot project).length - (restoredPaths entries).length, 0, none⟩ ∧
      folder = (projectFile, F.encodeValue
        ((rewriteNativeSamplePaths (restoredPaths entries) project).mapFloats again)) ::
          sampleFiles getBlob root entries := by
  have hfree := projectFile_free getBlob root displayName
    (selected (samplePathsInSnapshot project) manifest.entries)
  have hpath := projectFormatOfPath_projectFile root displayName
  have hrebuild : ∀ restored, ProjectSnapshot.fromSourceBytes F C R (fun v => .ok (F.encodeValue v)) .auru
      (F.encodeValue (rewriteNativeSamplePaths restored project)) =
        .ok ⟨.auru, F.encodeValue ((rewriteNativeSamplePaths restored project).mapFloats again), []⟩ :=
    fun restored => rebuild_eq (reparsed_mapClipPaths hF hproject _)
  simp only [restoreAuru, bind_ok_iff, mapError_ok_iff, hsamples, hmanifest, hproject, hrebuild,
    Except.ok.injEq, exists_eq_left', Prod.exists, restoreSamples_ok_iff hblobs, List.append_nil,
    restoreSnapshot_eq hpath, writeVerifiedNew_ok_iff, targets_nodup_iff, pure, Except.pure,
    Prod.mk.injEq]
  constructor
  · rintro ⟨folder₁, restored, ⟨happart, _, hfolder, hrestored⟩, folder₂, ⟨_, hfolder₂⟩, hresult, hend⟩
    subst hfolder hrestored hfolder₂
    exact ⟨happart, hresult.symm, hend.symm⟩
  · rintro ⟨happart, hresult, hfolder⟩
    exact ⟨_, _, ⟨happart, by simp, rfl, rfl⟩, _, ⟨hfree, rfl⟩, hresult.symm, hfolder.symm⟩

/-! Planning what was restored. -/

variable {bytesOf : ByteView Bytes}

theorem planned_native (m : Machine Bytes) {v : Value} (hableton : Ableton.isAbletonSnapshot v = false)
    (hfl : (v.get "format").bind readFormat ≠ some .flStudio) (root : HostPath)
    (policy : Ableton.BundlePolicy) :
    planAssetsWithReport F C bytesOf m v (some root) policy =
      .ok ⟨(samplePathsInSnapshot v).map fun path => (nativeFile (some root) path).read m, []⟩ := by
  rw [planAssetsWithReport, hableton, if_neg Bool.false_ne_true, if_neg hfl]

/-- What is planned of a document without a wrapper that is named an FL Studio project. -/
theorem planned_flStudio (m : Machine Bytes) (hF : F.Reparses limit again)
    (hjson : ∀ v, (bytesOf (F.encodeValue v)).head? ≠ some 0x46) {bytes : Bytes} {v : Value}
    (hv : F.decodeValue bytes = .ok v) (hmarker : v.get "auru_pm_snapshot" = none)
    (hfl : (v.get "format").bind readFormat = some .flStudio) (root : HostPath)
    (policy : Ableton.BundlePolicy) {planned : PlannedAssets Bytes}
    (h : planAssetsWithReport F C bytesOf m v (some root) policy = .ok planned) : planned.assets = [] := by
  have hableton : Ableton.isAbletonSnapshot v = false := by
    rw [Ableton.isAbletonSnapshot, hmarker]
    rfl
  rw [planAssetsWithReport, hableton, if_neg Bool.false_ne_true, if_pos hfl] at h
  obtain ⟨hwf, hdepth⟩ := hF.decoded bytes v hv
  have hsource : flSource F C v = some (F.encodeValue (v.mapFloats again)) := by
    have hunwrapped : (v.mapFloats again).get "auru_pm_snapshot" = none := by
      rw [Value.get_mapFloats, hmarker]
      rfl
    rw [flSource, ProjectSnapshot.fromCanonicalBytes, parseJson_ok_iff.mpr (hF.encoded v hwf hdepth)]
    simp only [bind, Except.bind, native_of_unwrapped hunwrapped, pure, Except.pure]
    rfl
  have hdecode : ∀ stream, FlStudio.Stream.decode (bytesOf (F.encodeValue (v.mapFloats again))) ≠
      .ok stream := by
    intro stream hstream
    obtain ⟨-, body, trailing, htext, -⟩ := FlStudio.decode_ok_iff.mp hstream
    apply hjson (v.mapFloats again)
    rw [htext]
    rfl
  rw [← Except.ok.inj h, flstudioAssetsFromValue, hsource]
  cases hread : FlStudio.Stream.decode (bytesOf (F.encodeValue (v.mapFloats again))) with
  | error e => simp only [hread]
  | ok stream => exact absurd hread (hdecode stream)

theorem nativeFile_sample (root : HostPath) (entry : SampleEntry ContentHash) :
    nativeFile (some root) (samplePath entry) = ⟨target root entry, samplePath entry, .sample, none⟩ := by
  have hrelative : (HostPath.ofText (samplePath entry)).isRelative = true := by
    rw [ofText_samplePath, HostPath.isRelative, decide_eq_true_eq]
    exact fun h => by cases h
  rw [nativeFile, join_samplePath]
  exact hrelative

theorem read_sample (m : Machine Bytes) (root : HostPath) (entry : SampleEntry ContentHash) :
    ((nativeFile (some root) (samplePath entry)).read m).contents = m.read (target root entry) := by
  rw [nativeFile_sample]
  generalize target root entry = path
  rfl

/-- A machine whose disk holds this folder. -/
def folderMachine (folder : Folder Bytes) : Machine Bytes where
  isFile path := path ∈ folder.map Prod.fst
  isDir _ := false
  read path := get? folder path
  readDir _ := .error "No such file or directory (os error 2)"
  proper := fun _ _ h => by cases h
  home := none

/-- A document whose planner is the native one, where it has samples. -/
def PlansNatively (project : Value) : Prop :=
  samplePathsInSnapshot project = [] ∨ (project.get "format").bind readFormat ≠ some .flStudio

section Promise
variable (F C bytesOf getBlob)

/-- What is promised of a native restore with these entries in its manifest. -/
structure RestoredCompletely (root : HostPath) (entries : List (SampleEntry ContentHash))
    (project : Value) (result : RestoreResult) (folder : Folder Bytes) : Prop where
  available : result.unavailable = 0
  written : ∀ entry ∈ selected (samplePathsInSnapshot project) entries, ∃ bytes,
    getBlob entry.hash = .ok bytes ∧ (root ++ [.normal (.text "Samples"),
      .normal (.text (safeNativeAssetFileName entry.path entry.hash))], bytes) ∈ folder
  pointed : ∃ f : String → String,
    (result.projectFile, F.encodeValue (mapClipPaths f project)) ∈ folder ∧ f "" = "" ∧
    (∀ path ∈ samplePathsInSnapshot project, ∃ entry ∈ entries,
      entry.path = path ∧ f path = samplePath entry) ∧
    ∀ (m : Machine Bytes) (policy : Ableton.BundlePolicy) (reread : Value),
      (∀ file bytes, (file, bytes) ∈ folder → m.read file = some bytes) →
      F.decodeValue (F.encodeValue (mapClipPaths f project)) = .ok reread →
      ∃ planned, planAssetsWithReport F C bytesOf m reread (some root) policy = .ok planned ∧
        ∀ path ∈ samplePathsInSnapshot project, ∃ asset ∈ planned.assets,
          asset.bundlePath = f path ∧ ∃ entry ∈ entries, entry.path = path ∧ ∃ bytes,
            getBlob entry.hash = .ok bytes ∧ asset.contents = some bytes

end Promise

variable {root : HostPath} {displayName : String}

theorem samplePath_ne_empty (entry : SampleEntry ContentHash) : samplePath entry ≠ "" := by
  intro h
  have htext := congrArg String.toList h
  rw [samplePath, String.toList_append] at htext
  cases htext

/-- What a native snapshot is read as. -/
theorem native_project (hF : F.Reparses limit again) {stored : Bytes}
    (hsnapshot : ProjectSnapshot.fromCanonicalBytes F C stored = .ok snapshot)
    (hauru : snapshot.format = .auru) (hproject : F.decodeValue snapshot.canonicalBytes = .ok project) :
    Ableton.isAbletonSnapshot project = false ∧
      ((project.get "format").bind readFormat = some .flStudio →
        project.get "auru_pm_snapshot" = none) := by
  obtain ⟨v, hv, hrest⟩ := bind_ok_iff.mp hsnapshot
  obtain ⟨format, hformat, hrest⟩ := bind_ok_iff.mp hrest
  cases hrest
  change format = .auru at hauru
  subst hauru
  obtain ⟨hwf, hdepth⟩ := hF.decoded stored v (parseJson_ok_iff.mp hv)
  obtain rfl : v.mapFloats again = project :=
    Except.ok.inj ((hF.encoded v hwf hdepth).symm.trans hproject)
  obtain ⟨hableton, hfl⟩ := native_cases hformat
  have hsame : Ableton.isAbletonSnapshot (v.mapFloats again) = Ableton.isAbletonSnapshot v := by
    rw [Ableton.isAbletonSnapshot, Value.get_mapFloats, Value.get_mapFloats, Option.isSome_map,
      Option.bind_map, Ableton.isAbletonSnapshot]
    have hstr : Value.asStr ∘ Value.mapFloats again = Value.asStr :=
      funext fun value => Value.asStr_mapFloats again value
    rw [hstr]
  refine ⟨hsame.trans hableton, fun h => ?_⟩
  rw [Value.get_mapFloats, Option.bind_map] at h
  have hread : readFormat ∘ Value.mapFloats again = readFormat :=
    funext fun value => readFormat_mapFloats again value
  rw [hread] at h
  rw [Value.get_mapFloats, hfl h]
  rfl

/-- Where the names are apart and the floats are kept, the restore is complete. -/
theorem restoredCompletely_of (hF : F.Reparses limit again) {stored : Bytes}
    (hsnapshot : ProjectSnapshot.fromCanonicalBytes F C stored = .ok snapshot)
    (hauru : snapshot.format = .auru) (hproject : F.decodeValue snapshot.canonicalBytes = .ok project)
    (hentries : ∀ path ∈ samplePathsInSnapshot project, ∃ entry ∈ manifest.entries, entry.path = path)
    (hblobs : ∀ entry ∈ manifest.entries, entry.path ∈ samplePathsInSnapshot project →
      ∃ bytes, getBlob entry.hash = .ok bytes)
    (hfloats : project.mapFloats again = project) (hplan : PlansNatively project)
    {result : RestoreResult} {folder : Folder Bytes}
    (hunavailable : result.unavailable = (samplePathsInSnapshot project).length -
      (restoredPaths (selected (samplePathsInSnapshot project) manifest.entries)).length)
    (hfolder : folder = (result.projectFile, F.encodeValue ((rewriteNativeSamplePaths
      (restoredPaths (selected (samplePathsInSnapshot project) manifest.entries)) project).mapFloats
        again)) :: sampleFiles getBlob root (selected (samplePathsInSnapshot project) manifest.entries)) :
    RestoredCompletely F C getBlob bytesOf root manifest.entries project result folder := by
  generalize hselected : selected (samplePathsInSnapshot project) manifest.entries = entries
    at hunavailable hfolder
  have hmem : ∀ entry, entry ∈ entries ↔
      entry ∈ manifest.entries ∧ entry.path ∈ samplePathsInSnapshot project := by
    intro entry
    rw [← hselected, selected, List.mem_filter, decide_eq_true_eq]
  have hdocument : (rewriteNativeSamplePaths (restoredPaths entries) project).mapFloats again =
      rewriteNativeSamplePaths (restoredPaths entries) project := by
    rw [Value.mapFloats_eq_iff_outline, rewriteNativeSamplePaths, outline_mapClipPaths,
      ← Value.mapFloats_eq_iff_outline, hfloats]
  rw [hdocument] at hfolder
  have hpointed : ∀ path ∈ samplePathsInSnapshot project, ∃ entry ∈ entries,
      entry.path = path ∧ (get? (restoredPaths entries) path).getD path = samplePath entry := by
    intro path hpath
    obtain ⟨entry, hentry, rfl⟩ := hentries path hpath
    obtain ⟨restored, hrestored⟩ := get?_restoredPaths ((hmem entry).mpr ⟨hentry, hpath⟩)
    obtain ⟨entry', hentry', hpath', rfl⟩ := restoredPath_of_get? hrestored
    exact ⟨entry', hentry', hpath', by rw [hrestored, Option.getD_some]⟩
  have hempty : (get? (restoredPaths entries) "").getD "" = "" :=
    restoredPath_empty fun entry hentry => (mem_samplePaths.mp ((hmem entry).mp hentry).2).2
  constructor
  · rw [hunavailable]
    apply Nat.sub_eq_zero_of_le
    refine length_samplePaths_le project fun path hpath => ?_
    obtain ⟨entry, hentry, hsame, -⟩ := hpointed path hpath
    exact ⟨entry, hentry, hsame⟩
  · intro entry hentry
    rw [hselected] at hentry
    obtain ⟨hentry', hpath⟩ := (hmem entry).mp hentry
    obtain ⟨bytes, hbytes⟩ := hblobs entry hentry' hpath
    refine ⟨bytes, hbytes, ?_⟩
    rw [hfolder, ← target_eq]
    exact List.mem_cons_of_mem _ (sampleFile_mem hentry hbytes)
  · refine ⟨fun path => (get? (restoredPaths entries) path).getD path, ?_, hempty, ?_, ?_⟩
    · rw [hfolder]
      exact List.mem_cons_self
    · intro path hpath
      obtain ⟨entry, hentry, h⟩ := hpointed path hpath
      exact ⟨entry, ((hmem entry).mp hentry).1, h⟩
    · intro m policy reread hm hreread
      obtain rfl : rewriteNativeSamplePaths (restoredPaths entries) project = reread := by
        have hread := reparsed_mapClipPaths hF hproject fun path =>
          (get? (restoredPaths entries) path).getD path
        exact hdocument.symm.trans (Except.ok.inj (hread.symm.trans hreread))
      have hget : ∀ key, key ≠ "channels" →
          (rewriteNativeSamplePaths (restoredPaths entries) project).get key = project.get key :=
        fun key hkey => get_mapClipPaths _ project hkey
      have hableton : Ableton.isAbletonSnapshot
          (rewriteNativeSamplePaths (restoredPaths entries) project) = false := by
        rw [Ableton.isAbletonSnapshot, hget _ (by decide), hget _ (by decide)]
        exact (native_project hF hsnapshot hauru hproject).1
      by_cases hfl : (project.get "format").bind readFormat = some .flStudio
      · rw [planAssetsWithReport, hableton, if_neg Bool.false_ne_true, hget _ (by decide), if_pos hfl]
        refine ⟨_, rfl, ?_⟩
        rw [hplan.resolve_right (not_not_intro hfl)]
        exact fun path hpath => absurd hpath List.not_mem_nil
      · rw [planned_native m hableton (by rwa [hget _ (by decide)])]
        refine ⟨_, rfl, fun path hpath => ?_⟩
        obtain ⟨entry, hentry, rfl, hf⟩ := hpointed path hpath
        obtain ⟨hentry', -⟩ := (hmem entry).mp hentry
        obtain ⟨bytes, hbytes⟩ := hblobs entry hentry' hpath
        have hfile : (target root entry, bytes) ∈ folder := by
          rw [hfolder]
          exact List.mem_cons_of_mem _ (sampleFile_mem hentry hbytes)
        refine ⟨_, List.mem_map.mpr ⟨samplePath entry, ?_, rfl⟩, hf.symm, entry, hentry', rfl, bytes,
          hbytes, ?_⟩
        · rw [mem_samplePaths, rewriteNativeSamplePaths, clipTexts_mapClipPaths]
          exact ⟨List.mem_map.mpr ⟨_, (mem_samplePaths.mp hpath).1, hf⟩, samplePath_ne_empty entry⟩
        · rw [read_sample]
          exact hm _ _ hfile

/-- A native restore is complete exactly where no two samples share a name, the floats are read as
they were printed, and the project is not named as one of FL Studio. -/
theorem restoreAuru_complete_iff (hF : F.Reparses limit again)
    (hjson : ∀ v, (bytesOf (F.encodeValue v)).head? ≠ some 0x46) {stored : Bytes}
    (hsnapshot : ProjectSnapshot.fromCanonicalBytes F C stored = .ok snapshot)
    (hauru : snapshot.format = .auru) (hproject : F.decodeValue snapshot.canonicalBytes = .ok project)
    (hsamples : getBlob samples = .ok manifestBytes)
    (hmanifest : F.decodeManifest manifestBytes = .ok manifest)
    (hentries : ∀ path ∈ samplePathsInSnapshot project, ∃ entry ∈ manifest.entries, entry.path = path)
    (hblobs : ∀ entry ∈ manifest.entries, entry.path ∈ samplePathsInSnapshot project →
      ∃ bytes, getBlob entry.hash = .ok bytes) (root : HostPath) (displayName : String) :
    (∃ result folder, restoreAuru F C R getBlob samples snapshot root
        (safeProjectFileName displayName .auru) = .ok (result, folder) ∧
      RestoredCompletely F C getBlob bytesOf root manifest.entries project result folder) ↔
      NamesApart (selected (samplePathsInSnapshot project) manifest.entries) ∧
        project.mapFloats again = project ∧ PlansNatively project := by
  constructor
  · intro ⟨result, folder, hok, _, _, f, hfile, _, _, hplanned⟩
    obtain ⟨happart, hresult, hfolder⟩ :=
      (restoreAuru_ok_iff hF hsamples hmanifest hproject hblobs).mp hok
    have hfree := projectFile_free getBlob root displayName
      (selected (samplePathsInSnapshot project) manifest.entries)
    generalize root.join (HostPath.ofText (safeProjectFileName displayName .auru)) = projectFile
      at hresult hfolder hfree
    have hfloats : project.mapFloats again = project := by
      rw [hfolder, hresult] at hfile
      rcases List.mem_cons.mp hfile with h | h
      · have hdocument := hF.printed (Prod.mk.inj h).2
        rw [Value.mapFloats_eq_iff_outline]
        have houtline := congrArg Value.outline hdocument
        rw [outline_mapClipPaths, Value.outline_mapFloats, rewriteNativeSamplePaths,
          outline_mapClipPaths] at houtline
        exact houtline.symm
      · exact absurd (List.mem_map.mpr ⟨_, h, rfl⟩) hfree
    refine ⟨happart, hfloats, ?_⟩
    by_contra hnot
    obtain ⟨hsome, hfl⟩ := not_or.mp hnot
    have hfl := not_not.mp hfl
    obtain ⟨path, hpath⟩ := List.exists_mem_of_ne_nil _ hsome
    have hkeep : (mapClipPaths f project).mapFloats again = mapClipPaths f project := by
      rw [Value.mapFloats_eq_iff_outline, outline_mapClipPaths, ← Value.mapFloats_eq_iff_outline, hfloats]
    have hread := reparsed_mapClipPaths hF hproject f
    rw [hkeep] at hread
    have hkeys : (folder.map Prod.fst).Nodup := by
      rw [hfolder, List.map_cons, List.nodup_cons]
      exact ⟨hfree, sampleFiles_keys_nodup ((targets_nodup_iff root _).mpr happart)⟩
    obtain ⟨planned, hplan, hassets⟩ := hplanned (folderMachine folder)
      { } _ (fun file bytes h => get?_of_nodup hkeys h) hread
    have hnone : planned.assets = [] := by
      apply planned_flStudio (folderMachine folder) hF hjson hread _ _ root _ hplan
      · rw [get_mapClipPaths _ _ (by decide)]
        exact (native_project hF hsnapshot hauru hproject).2 hfl
      · rw [get_mapClipPaths _ _ (by decide)]
        exact hfl
    obtain ⟨asset, hasset, -⟩ := hassets path hpath
    rw [hnone] at hasset
    cases hasset
  · intro ⟨happart, hfloats, hplan⟩
    refine ⟨_, _, (restoreAuru_ok_iff hF hsamples hmanifest hproject hblobs).mpr ⟨happart, rfl, rfl⟩, ?_⟩
    generalize root.join (HostPath.ofText (safeProjectFileName displayName .auru)) = projectFile
    exact restoredCompletely_of hF hsnapshot hauru hproject hentries hblobs hfloats hplan rfl rfl

end Whole

/-! A drum kit. -/

inductive KitText where
  | document (v : Value)
  | manifest (m : SampleManifest ContentHash)
  | audio (n : Nat)

def kitHash (n : UInt8) : ContentHash := ⟨List.replicate 32 n, List.length_replicate⟩

def kitFormats : Formats KitText ContentHash where
  contentHash _ := kitHash 0
  zero := kitHash 0
  hashText := hashDisplay
  byteLength _ := 0
  encodeFrame := id
  decodeFrame := some
  encodeCommit _ := .error "unused"
  decodeCommit _ := .error "unused"
  encodeManifest m := .ok (.manifest m)
  decodeManifest
    | .manifest m => .ok m
    | _ => .error "expected value"
  encodeValue := .document
  decodeValue
    | .document v => if v.wf ∧ v.depth ≤ 127 then .ok v else .error "expected value"
    | _ => .error "expected value"

theorem kitFormats_reparses : kitFormats.Reparses 127 id where
  decoded bytes v h := by
    cases bytes with
    | document w =>
      simp only [kitFormats] at h
      split at h
      · rename_i hshape
        cases h
        exact hshape
      · cases h
    | _ => cases h
  encoded v hwf hdepth := by
    rw [Value.mapFloats_id]
    exact if_pos ⟨hwf, hdepth⟩
  printed v w h := KitText.document.inj h

def kitCodecs : Codecs KitText ContentHash where
  isAlphabetic := Char.isAlpha
  isAlphanumeric := Char.isAlphanum
  parseHash _ := none
  base64Encode _ := ""
  base64Decode _ := .error "unused"
  isBitwig _ := false
  writeXml _ := .error "unused"
  gzip _ := .error "unused"
  flFromTree _ := .error "unused"
  zipStart _ _ := .ok ()
  zipWrite _ _ _ := .ok ()
  zipFinish _ := .error "unused"

def kitReaders : SourceCodecs KitText where
  readXml _ := []
  isGzip _ := false
  gunzip _ _ := .error "unused"
  zipEntries _ := .error "unused"
  flToTree _ := .error "unused"

def audioClip (path : String) : Value :=
  .object [("data", .object [("Audio", .object [("file_path", .string path)])])]

def kitProject (paths : List String) : Value :=
  .object [("channels", .array [.object [("clips", .array (paths.map audioClip))]])]

def kitManifest (paths : List String) : SampleManifest ContentHash :=
  ⟨paths.map fun path => ⟨path, kitHash 2, 4, .sample, none⟩⟩

def kitBlob (paths : List String) (hash : ContentHash) : Except String KitText :=
  if hash = kitHash 1 then .ok (.manifest (kitManifest paths)) else .ok (.audio 0)

theorem kitBlob_entry {paths : List String} {entry : SampleEntry ContentHash}
    (h : entry ∈ (kitManifest paths).entries) : kitBlob paths entry.hash = .ok (.audio 0) := by
  obtain ⟨path, -, rfl⟩ := List.mem_map.mp h
  exact if_neg (show kitHash 2 ≠ kitHash 1 by decide)

theorem oneKick_restored : ∃ result folder,
    restoreAuru kitFormats kitCodecs kitReaders (kitBlob ["Drums A/kick.wav"]) (kitHash 1)
      ⟨.auru, .document (kitProject ["Drums A/kick.wav"]), []⟩ [.rootDir]
      (safeProjectFileName "Beat" .auru) = .ok (result, folder) ∧
    RestoredCompletely kitFormats kitCodecs (kitBlob ["Drums A/kick.wav"]) (fun _ => [0x7b]) [.rootDir]
      (kitManifest ["Drums A/kick.wav"]).entries (kitProject ["Drums A/kick.wav"]) result folder := by
  refine (restoreAuru_complete_iff kitFormats_reparses (fun _ => by decide)
    (show ProjectSnapshot.fromCanonicalBytes kitFormats kitCodecs
      (.document (kitProject ["Drums A/kick.wav"])) = _ from rfl) rfl rfl rfl rfl ?_
    (fun entry h _ => ⟨.audio 0, kitBlob_entry h⟩) [.rootDir] "Beat").mpr
    ⟨?_, Value.mapFloats_id _, Or.inr ?_⟩
  · decide +kernel
  · unfold NamesApart
    decide +kernel
  · decide +kernel

/-- Two samples of equal contents and equal names in different folders: the second is refused. -/
theorem twoKicks_refused :
    (∀ path ∈ samplePathsInSnapshot (kitProject ["Drums A/kick.wav", "Drums B/kick.wav"]),
      ∃ entry ∈ (kitManifest ["Drums A/kick.wav", "Drums B/kick.wav"]).entries, entry.path = path) ∧
    (∀ entry ∈ (kitManifest ["Drums A/kick.wav", "Drums B/kick.wav"]).entries,
      kitBlob ["Drums A/kick.wav", "Drums B/kick.wav"] entry.hash = .ok (.audio 0)) ∧
    ∃ error, restoreAuru kitFormats kitCodecs kitReaders
      (kitBlob ["Drums A/kick.wav", "Drums B/kick.wav"]) (kitHash 1)
      ⟨.auru, .document (kitProject ["Drums A/kick.wav", "Drums B/kick.wav"]), []⟩ [.rootDir]
      (safeProjectFileName "Beat" .auru) = .error error := by
  refine ⟨by decide +kernel, fun entry h => kitBlob_entry h, ?_⟩
  cases hend : restoreAuru kitFormats kitCodecs kitReaders
      (kitBlob ["Drums A/kick.wav", "Drums B/kick.wav"]) (kitHash 1)
      ⟨.auru, .document (kitProject ["Drums A/kick.wav", "Drums B/kick.wav"]), []⟩ [.rootDir]
      (safeProjectFileName "Beat" .auru) with
  | error error => exact ⟨error, rfl⟩
  | ok restored =>
    have happart := ((restoreAuru_ok_iff kitFormats_reparses rfl rfl rfl
      (fun entry h _ => ⟨.audio 0, kitBlob_entry h⟩)).mp hend).1
    unfold NamesApart at happart
    exact absurd happart (by decide +kernel)

end Restore

end AuruPm
