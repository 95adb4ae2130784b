import AuruPm.PluginIds
import AuruPm.ProjectFolder
import AuruPm.RestoreTarget

/-!
# Written path aliases

All aliases are given as one text. Mappings stand between semicolons, or between colons in the
older form, and each has its prefix before its first equals sign and its folder after it.
-/

namespace AuruPm.Ableton

set_option autoImplicit false

def PathAlias.new (fromPrefix toFolder : String) : PathAlias :=
  ⟨fromPrefix, HostPath.ofText toFolder⟩

/-- The loop over the characters, with those since the last separator. A colon separates when there
is an equals sign before it and one after it. -/
def splitEntry : List Char → Bool → List Char → List (List Char)
  | piece, _, [] => [piece]
  | piece, sawEquals, c :: rest =>
    if c = '=' then splitEntry (piece ++ [c]) true rest
    else if c = ':' ∧ sawEquals ∧ '=' ∈ rest then piece :: splitEntry [] false rest
    else splitEntry (piece ++ [c]) sawEquals rest

def aliasEntries (raw : String) : List (List Char) :=
  (raw.toList.splitOn ';').flatMap (splitEntry [] false)

def trimText (text : String) : String :=
  String.ofList (Restore.trim FlStudio.isWhitespace text.toList)

def parseEntry (entry : List Char) : Option (String × String) :=
  (PluginId.splitOnce '=' (String.ofList entry)).bind fun (fromPrefix, toFolder) =>
    let (fromPrefix, toFolder) := (trimText fromPrefix, trimText toFolder)
    if fromPrefix ≠ "" ∧ toFolder ≠ "" then some (fromPrefix, toFolder) else none

/-- The prefixes and folders as they are written. -/
def aliasTexts (raw : String) : List (String × String) := (aliasEntries raw).filterMap parseEntry

def parsePathAliases (raw : String) : List PathAlias :=
  (aliasTexts raw).map fun mapping => PathAlias.new mapping.1 mapping.2

/-! Pieces of an entry. -/

section Pieces
variable {part rest : List Char}

theorem splitEntry_append {sawEquals : Bool} (hequals : '=' ∉ part)
    (hcolon : sawEquals = true → ':' ∉ part) (piece rest : List Char) :
    splitEntry piece sawEquals (part ++ rest) = splitEntry (piece ++ part) sawEquals rest := by
  induction part generalizing piece with
  | nil => rw [List.nil_append, List.append_nil]
  | cons c part ih =>
    have hc : c ≠ '=' := fun h => hequals (h ▸ List.mem_cons_self)
    have hsame : ¬ (c = ':' ∧ sawEquals = true ∧ '=' ∈ part ++ rest) := by
      rintro ⟨rfl, hsaw, -⟩
      exact hcolon hsaw List.mem_cons_self
    rw [List.cons_append, splitEntry, if_neg hc, if_neg hsame,
      ih (fun h => hequals (List.mem_cons_of_mem c h))
        (fun hsaw h => hcolon hsaw (List.mem_cons_of_mem c h)),
      List.append_assoc, List.singleton_append]

/-- Colons after the last equals sign belong to the folder. -/
theorem splitEntry_last (hequals : '=' ∉ part) (piece : List Char) (sawEquals : Bool) :
    splitEntry piece sawEquals part = [piece ++ part] := by
  induction part generalizing piece with
  | nil => rw [splitEntry, List.append_nil]
  | cons c part ih =>
    have hc : c ≠ '=' := fun h => hequals (h ▸ List.mem_cons_self)
    have hpart : '=' ∉ part := fun h => hequals (List.mem_cons_of_mem c h)
    rw [splitEntry, if_neg hc, if_neg (fun h => hpart h.2.2), ih hpart, List.append_assoc,
      List.singleton_append]

theorem splitEntry_equals (piece : List Char) (sawEquals : Bool) (rest : List Char) :
    splitEntry piece sawEquals ('=' :: rest) = splitEntry (piece ++ ['=']) true rest := by
  rw [splitEntry, if_pos rfl]

theorem splitEntry_colon (hrest : '=' ∈ rest) (piece : List Char) :
    splitEntry piece true (':' :: rest) = piece :: splitEntry [] false rest := by
  rw [splitEntry, if_neg (by decide), if_pos ⟨rfl, rfl, hrest⟩]

theorem splitEntry_ne_nil (piece : List Char) (sawEquals : Bool) (text : List Char) :
    splitEntry piece sawEquals text ≠ [] := by
  induction text generalizing piece sawEquals with
  | nil => exact List.cons_ne_nil _ _
  | cons c text ih =>
    rw [splitEntry]
    split
    · exact ih _ _
    · split
      · exact List.cons_ne_nil _ _
      · exact ih _ _

/-- Nothing but the separating colons is left out. -/
theorem intercalate_splitEntry (piece : List Char) (sawEquals : Bool) (text : List Char) :
    [':'].intercalate (splitEntry piece sawEquals text) = piece ++ text := by
  induction text generalizing piece sawEquals with
  | nil => rw [splitEntry, List.intercalate_singleton, List.append_nil]
  | cons c text ih =>
    rw [splitEntry]
    split
    · rw [ih, List.append_assoc, List.singleton_append]
    · split
      · rename_i hsplit
        rw [List.intercalate_cons_of_ne_nil (splitEntry_ne_nil _ _ _), ih, hsplit.1,
          List.nil_append, List.append_assoc, List.singleton_append]
      · rw [ih, List.append_assoc, List.singleton_append]

end Pieces

/-! Written mappings. -/

/-- A text that can be told from the separators around it. -/
structure AliasText (text : String) : Prop where
  nonempty : text ≠ ""
  trimmed : trimText text = text
  noSemicolon : ';' ∉ text.toList
  noEquals : '=' ∉ text.toList

instance (text : String) : Decidable (AliasText text) :=
  decidable_of_iff
    (text ≠ "" ∧ trimText text = text ∧ ';' ∉ text.toList ∧ '=' ∉ text.toList)
    ⟨fun ⟨hne, htrim, hsemicolon, hequals⟩ => ⟨hne, htrim, hsemicolon, hequals⟩,
      fun h => ⟨h.nonempty, h.trimmed, h.noSemicolon, h.noEquals⟩⟩

def mappingText (mapping : String × String) : String := mapping.1 ++ "=" ++ mapping.2

theorem toList_mappingText (mapping : String × String) :
    (mappingText mapping).toList = mapping.1.toList ++ '=' :: mapping.2.toList := by
  rw [mappingText, String.toList_append, String.toList_append, List.append_assoc]
  rfl

section Written
variable {mapping : String × String}

theorem parseEntry_mappingText (hfrom : AliasText mapping.1) (hto : AliasText mapping.2) :
    parseEntry (mappingText mapping).toList = some mapping := by
  have hsplit : PluginId.splitOnce '=' (mappingText mapping) = some (mapping.1, mapping.2) := by
    rw [mappingText, String.append_assoc]
    exact PluginId.splitOnce_append hfrom.noEquals mapping.2
  rw [parseEntry, String.ofList_toList, hsplit, Option.bind_some]
  dsimp only
  rw [hfrom.trimmed, hto.trimmed, if_pos ⟨hfrom.nonempty, hto.nonempty⟩]

theorem splitEntry_mappingText (hfrom : '=' ∉ mapping.1.toList) (hto : '=' ∉ mapping.2.toList) :
    splitEntry [] false (mappingText mapping).toList = [(mappingText mapping).toList] := by
  rw [toList_mappingText, splitEntry_append hfrom (absurd · Bool.false_ne_true),
    splitEntry_equals, splitEntry_last hto, List.nil_append, List.append_assoc,
    List.singleton_append]

theorem splitEntry_cons {rest : List Char} (hfrom : '=' ∉ mapping.1.toList)
    (hto : '=' ∉ mapping.2.toList) (hcolon : ':' ∉ mapping.2.toList) (hrest : '=' ∈ rest) :
    splitEntry [] false ((mappingText mapping).toList ++ ':' :: rest) =
      (mappingText mapping).toList :: splitEntry [] false rest := by
  rw [toList_mappingText, List.append_assoc, List.cons_append,
    splitEntry_append hfrom (absurd · Bool.false_ne_true), splitEntry_equals, splitEntry_append hto fun _ => hcolon, splitEntry_colon hrest,
    List.nil_append, List.append_assoc, List.singleton_append]

end Written

/-- Mappings that can be told apart when they are written between colons: a colon may be in each
prefix and in the last folder. -/
structure ColonGroup (group : List (String × String)) : Prop where
  nonempty : group ≠ []
  texts : ∀ mapping ∈ group, AliasText mapping.1 ∧ AliasText mapping.2
  folders : ∀ mapping ∈ group.dropLast, ':' ∉ mapping.2.toList

def groupText (group : List (String × String)) : String := ":".intercalate (group.map mappingText)

theorem groupText_singleton (mapping : String × String) :
    groupText [mapping] = mappingText mapping := by
  rw [groupText, List.map_singleton, String.intercalate_singleton]

theorem toList_groupText_cons (mapping next : String × String) (group : List (String × String)) :
    (groupText (mapping :: next :: group)).toList =
      (mappingText mapping).toList ++ ':' :: (groupText (next :: group)).toList := by
  rw [groupText, groupText, String.toList_intercalate, String.toList_intercalate]
  rfl

/-- A character that no written mapping has is not in their group. -/
theorem not_mem_groupText {c : Char} (hc : c ≠ ':') {group : List (String × String)}
    (h : ∀ mapping ∈ group, c ∉ (mappingText mapping).toList) : c ∉ (groupText group).toList := by
  induction group with
  | nil => exact List.not_mem_nil
  | cons mapping group ih =>
    cases group with
    | nil =>
      rw [groupText_singleton]
      exact h mapping List.mem_cons_self
    | cons next group =>
      rw [toList_groupText_cons, List.mem_append, List.mem_cons, not_or, not_or]
      exact ⟨h mapping List.mem_cons_self, hc, ih fun m hm => h m (List.mem_cons_of_mem _ hm)⟩

theorem equals_mem_groupText {group : List (String × String)} (h : group ≠ []) :
    '=' ∈ (groupText group).toList := by
  have hmapping : ∀ mapping, '=' ∈ (mappingText mapping).toList := by
    intro mapping
    rw [toList_mappingText]
    exact List.mem_append_right _ List.mem_cons_self
  match group, h with
  | [mapping], _ =>
    rw [groupText_singleton]
    exact hmapping mapping
  | mapping :: next :: group, _ =>
    rw [toList_groupText_cons]
    exact List.mem_append_left _ (hmapping mapping)

theorem splitEntry_groupText {group : List (String × String)} (h : ColonGroup group) :
    splitEntry [] false (groupText group).toList =
      group.map fun mapping => (mappingText mapping).toList := by
  induction group with
  | nil => exact absurd rfl h.nonempty
  | cons mapping group ih =>
    obtain ⟨hfrom, hto⟩ := h.texts mapping List.mem_cons_self
    cases group with
    | nil =>
      rw [groupText_singleton]
      exact splitEntry_mappingText hfrom.noEquals hto.noEquals
    | cons next group =>
      have hrest : ColonGroup (next :: group) :=
        ⟨List.cons_ne_nil _ _, fun m hm => h.texts m (List.mem_cons_of_mem _ hm),
          fun m hm => h.folders m (List.mem_cons_of_mem _ hm)⟩
      rw [toList_groupText_cons, splitEntry_cons hfrom.noEquals hto.noEquals
        (h.folders mapping List.mem_cons_self) (equals_mem_groupText hrest.nonempty), ih hrest]
      rfl

theorem parseEntry_group {group : List (String × String)}
    (h : ∀ mapping ∈ group, AliasText mapping.1 ∧ AliasText mapping.2) :
    (group.map fun mapping => (mappingText mapping).toList).filterMap parseEntry = group := by
  induction group with
  | nil => rfl
  | cons mapping group ih =>
    obtain ⟨hfrom, hto⟩ := h mapping List.mem_cons_self
    rw [List.map_cons, List.filterMap_cons_some (parseEntry_mappingText hfrom hto),
      ih fun m hm => h m (List.mem_cons_of_mem _ hm)]

theorem noSemicolon_groupText {group : List (String × String)} (h : ColonGroup group) :
    ';' ∉ (groupText group).toList := by
  refine not_mem_groupText (by decide) fun mapping hmapping => ?_
  obtain ⟨hfrom, hto⟩ := h.texts mapping hmapping
  rw [toList_mappingText, List.mem_append, List.mem_cons, not_or, not_or]
  exact ⟨hfrom.noSemicolon, by decide, hto.noSemicolon⟩

/-- Mappings of the older form are read back too, each group between semicolons. -/
theorem aliasTexts_groups {groups : List (List (String × String))}
    (h : ∀ group ∈ groups, ColonGroup group) :
    aliasTexts (";".intercalate (groups.map groupText)) = groups.flatten := by
  by_cases hne : groups = []
  · subst hne
    rfl
  · have hsplit : (";".intercalate (groups.map groupText)).toList.splitOn ';' =
        groups.map fun group => (groupText group).toList := by
      rw [String.toList_intercalate, List.map_map]
      refine List.splitOn_intercalate ';' ?_ (by simpa using hne)
      intro text htext
      obtain ⟨group, hgroup, rfl⟩ := List.mem_map.mp htext
      exact noSemicolon_groupText (h group hgroup)
    rw [aliasTexts, aliasEntries, hsplit, List.flatMap_map, List.filterMap_flatMap,
      ← List.flatMap_id']
    refine List.flatMap_congr fun group hgroup => ?_
    rw [splitEntry_groupText (h group hgroup)]
    exact parseEntry_group (h group hgroup).texts

example : aliasTexts "/old=/new:/another=/elsewhere" =
    [("/old", "/new"), ("/another", "/elsewhere")] := by decide

theorem aliasTexts_pairs {pairs : List (String × String)}
    (h : ∀ mapping ∈ pairs, AliasText mapping.1 ∧ AliasText mapping.2) :
    aliasTexts (";".intercalate (pairs.map mappingText)) = pairs := by
  have hgroups : ∀ group ∈ pairs.map fun mapping => [mapping], ColonGroup group := by
    intro group hgroup
    obtain ⟨mapping, hmapping, rfl⟩ := List.mem_map.mp hgroup
    exact ⟨List.cons_ne_nil _ _, fun m hm => List.mem_singleton.mp hm ▸ h mapping hmapping, nofun⟩
  have hread := aliasTexts_groups hgroups
  rw [List.map_map] at hread
  have htexts : pairs.map (groupText ∘ fun mapping => [mapping]) = pairs.map mappingText :=
    List.map_congr_left fun mapping _ => groupText_singleton mapping
  rw [htexts] at hread
  rw [hread, ← List.flatMap_def, List.flatMap_singleton']

/-- What is written is read back, in its order. -/
theorem parsePathAliases_written {pairs : List (String × String)}
    (h : ∀ mapping ∈ pairs, AliasText mapping.1 ∧ AliasText mapping.2) :
    aliasTexts (";".intercalate (pairs.map mappingText)) = pairs ∧
      parsePathAliases (";".intercalate (pairs.map mappingText)) =
        pairs.map fun mapping => PathAlias.new mapping.1 mapping.2 := by
  rw [parsePathAliases, aliasTexts_pairs h]
  exact ⟨rfl, rfl⟩

theorem parsePathAliases_windows :
    aliasTexts "E:/Music Production=/mnt/ssd/Music Production;D:\\Packs=/packs" =
        [("E:/Music Production", "/mnt/ssd/Music Production"), ("D:\\Packs", "/packs")] ∧
      parsePathAliases "E:/Music Production=/mnt/ssd/Music Production;D:\\Packs=/packs" =
        [PathAlias.new "E:/Music Production" "/mnt/ssd/Music Production",
          PathAlias.new "D:\\Packs" "/packs"] := by
  have htexts : ∀ mapping ∈
      [("E:/Music Production", "/mnt/ssd/Music Production"), ("D:\\Packs", "/packs")],
      AliasText mapping.1 ∧ AliasText mapping.2 := by decide
  have hwritten := parsePathAliases_written htexts
  simpa [mappingText, String.intercalate_cons_cons] using hwritten

/-! What is read. -/

theorem mem_intercalate {sep piece : List Char} {pieces : List (List Char)} {c : Char}
    (hpiece : piece ∈ pieces) (hc : c ∈ piece) : c ∈ sep.intercalate pieces := by
  induction pieces with
  | nil => cases hpiece
  | cons first pieces ih =>
    cases pieces with
    | nil =>
      rw [List.intercalate_singleton]
      exact List.mem_singleton.mp hpiece ▸ hc
    | cons second pieces =>
      rw [List.intercalate_cons_cons, List.mem_append]
      rcases List.mem_cons.mp hpiece with rfl | hpiece
      · exact .inl (List.mem_append_left _ hc)
      · exact .inr (ih hpiece)

theorem noSemicolon_aliasEntries {raw : String} {entry : List Char}
    (h : entry ∈ aliasEntries raw) : ';' ∉ entry := by
  obtain ⟨part, hpart, hentry⟩ := List.mem_flatMap.mp h
  intro hsemicolon
  have hin : ';' ∈ part := by
    have hwhole := intercalate_splitEntry [] false part
    rw [List.nil_append] at hwhole
    rw [← hwhole]
    exact mem_intercalate hentry hsemicolon
  rw [List.splitOn_eq_splitOnP] at hpart
  have hseparator := LexicalPath.not_separator_of_mem hpart ';' hin
  cases hseparator

theorem trimText_trimText (text : String) : trimText (trimText text) = trimText text := by
  rw [trimText, trimText, String.toList_ofList, Restore.trim_trim]

theorem not_mem_trimText {c : Char} {text : String} (h : c ∉ text.toList) :
    c ∉ (trimText text).toList := by
  rw [trimText, String.toList_ofList]
  exact fun hc => h (Restore.mem_of_mem_trim hc)

/-- A mapping is read with a prefix that could be written again, and a folder that could be written
again unless there is an equals sign in it. -/
theorem aliasText_of_mem {raw : String} {mapping : String × String}
    (h : mapping ∈ aliasTexts raw) :
    AliasText mapping.1 ∧ ('=' ∉ mapping.2.toList → AliasText mapping.2) := by
  obtain ⟨entry, hentry, hparse⟩ := List.mem_filterMap.mp h
  have hsemicolon := noSemicolon_aliasEntries hentry
  rw [parseEntry, Option.bind_eq_some_iff] at hparse
  obtain ⟨⟨fromPrefix, toFolder⟩, hsplit, hparse⟩ := hparse
  obtain ⟨htext, hequals⟩ := PluginId.splitOnce_eq_some hsplit
  have hlist : entry = fromPrefix.toList ++ '=' :: toFolder.toList := by
    have hwhole : entry = (String.ofList entry).toList := String.toList_ofList.symm
    rw [hwhole, htext]
    simp
  rw [hlist, List.mem_append, List.mem_cons, not_or, not_or] at hsemicolon
  dsimp only at hparse
  split at hparse
  · rename_i hne
    obtain rfl := Option.some.inj hparse
    exact ⟨⟨hne.1, trimText_trimText _, not_mem_trimText hsemicolon.1, not_mem_trimText hequals⟩,
      fun h => ⟨hne.2, trimText_trimText _, not_mem_trimText hsemicolon.2.2, h⟩⟩
  · cases hparse

end AuruPm.Ableton
