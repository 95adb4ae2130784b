import AuruPm.FlSnapshot
import AuruPm.PluginCollectors
import Mathlib.Data.List.Dedup
import Mathlib.Data.Multiset.Dedup
import Mathlib.Data.Multiset.AddSub

/-!
# Comparing two versions of an FL Studio project

The card of the patterns counts the rows it shows: a row stands for a name however often it was
added, and a card shows so many rows at most.
-/

namespace AuruPm

set_option autoImplicit false

open SortedAssoc

inductive ChangeKind where
  | add
  | remove
  | modify
  deriving DecidableEq, Repr

inductive ChannelKind where
  | audio
  | midi
  | plugin
  | other
  deriving DecidableEq, Repr

/-- The kinds of change that the comparisons report. -/
inductive ChangeTag where
  | added
  | removed
  | moved
  | length
  | content
  | fxAdded
  | fxRemoved
  | instrumentChanged
  deriving DecidableEq, Repr

structure ChangeRow where
  tag : ChangeTag
  kind : ChangeKind
  target : String
  before : Option String
  after : Option String
  deriving DecidableEq, Repr

structure ChannelDiff where
  name : String
  kind : ChannelKind
  status : ChangeKind
  clipsAdded : Nat
  clipsRemoved : Nat
  clipsModified : Nat
  rows : List ChangeRow
  deriving DecidableEq, Repr

structure ProjectDiff where
  projectChanges : List String
  timeSig : Nat × Nat
  channels : List ChannelDiff
  deriving DecidableEq, Repr

def ProjectDiff.totalClipsAdded (diff : ProjectDiff) : Nat :=
  (diff.channels.map ChannelDiff.clipsAdded).sum

def ProjectDiff.totalClipsRemoved (diff : ProjectDiff) : Nat :=
  (diff.channels.map ChannelDiff.clipsRemoved).sum

namespace FlStudio

/-! What a project is. -/

def eventTempo : UInt8 := 156

def eventTimeSigNumerator : UInt8 := 17

def eventTimeSigDenominator : UInt8 := 18

def eventPatternName : UInt8 := 193

def eventTitle : UInt8 := 194

def eventInsertName : UInt8 := 204

def eventMarkerName : UInt8 := 205

def eventGenre : UInt8 := 206

def eventAuthor : UInt8 := 207

/-- The metadata that the comparison reads, with the tempo in thousandths. -/
structure FlStudioMetadata where
  version : Option String
  title : Option String
  author : Option String
  genre : Option String
  tempo : Option Nat
  timeSignature : Option (Nat × Nat)
  channels : UInt16
  patternNames : List String
  insertNames : List String
  markers : List String
  plugins : List PluginRef

def nonEmpty (value : String) : Option String :=
  if value.toList.all isWhitespace then none else some value

/-- `push_named` -/
def pushNamed (into : List String) (value : String) : List String :=
  if value.toList.all isWhitespace then into else into ++ [value]

/-- Metadata being read, with the two parts of the time signature. -/
structure Reading where
  metadata : FlStudioMetadata
  numerator : Option Nat
  denominator : Option Nat

def readEvent (utf16 : Bool) (reading : Reading) (event : Event) : Reading :=
  let metadata := reading.metadata
  let text := eventText event.payload utf16
  if event.id = eventTempo then
    { reading with metadata := { metadata with tempo := event.asU32 } }
  else if event.id = eventTimeSigNumerator then { reading with numerator := event.asU32 }
  else if event.id = eventTimeSigDenominator then { reading with denominator := event.asU32 }
  else if event.id = eventTitle then
    { reading with metadata := { metadata with title := nonEmpty text } }
  else if event.id = eventAuthor then
    { reading with metadata := { metadata with author := nonEmpty text } }
  else if event.id = eventGenre then
    { reading with metadata := { metadata with genre := nonEmpty text } }
  else if event.id = eventPatternName then
    { reading with
      metadata := { metadata with patternNames := pushNamed metadata.patternNames text } }
  else if event.id = eventInsertName then
    { reading with
      metadata := { metadata with insertNames := pushNamed metadata.insertNames text } }
  else if event.id = eventMarkerName then
    { reading with metadata := { metadata with markers := pushNamed metadata.markers text } }
  else reading

def startReading (stream : Stream) : Reading where
  metadata :=
    { version := stream.version
      title := none
      author := none
      genre := none
      tempo := none
      timeSignature := none
      channels := stream.header.channels
      patternNames := []
      insertNames := []
      markers := []
      plugins := collectPlugins stream }
  numerator := none
  denominator := none

/-- `meta::extract` -/
def extract (stream : Stream) : FlStudioMetadata :=
  let reading := stream.events.foldl (readEvent (usesUtf16 stream.majorVersion)) (startReading stream)
  { reading.metadata with
    timeSignature :=
      match reading.numerator, reading.denominator with
      | some numerator, some denominator =>
        if denominator = 0 then none else some (numerator, denominator)
      | _, _ => none }

/-! The comparison. -/

def maxRowsPerChannel : Nat := 24

/-- Beats per minute, without zeros at the end. -/
def tempoText (thousandths : Nat) : String :=
  let part := thousandths % 1000
  let digits := ([part / 100, part / 10 % 10, part % 10].reverse.dropWhile (· = 0)).reverse
  if part = 0 then toString (thousandths / 1000)
  else toString (thousandths / 1000) ++ "." ++ String.ofList (digits.map Nat.digitChar)

def creditChanges (label : String) : Option String → Option String → List String
  | some a, some b => if a = b then [] else [label ++ ": " ++ a ++ " → " ++ b]
  | none, some b => [label ++ ": " ++ b]
  | some a, none => [label ++ " removed (was " ++ a ++ ")"]
  | none, none => []

/-- Names added and removed between two lists, taken as sets. -/
def describeSetChange (label : String) (before after : List String) : List String :=
  ((keySet after).filter (· ∉ before)).map (label ++ " added: " ++ ·) ++
    ((keySet before).filter (· ∉ after)).map (label ++ " removed: " ++ ·)

def timeSigText (sig : Nat × Nat) : String := toString sig.1 ++ "/" ++ toString sig.2

def projectChanges (before after : FlStudioMetadata) : List String :=
  (match before.tempo, after.tempo with
    | some a, some b => if a = b then [] else ["Tempo: " ++ tempoText a ++ " → " ++ tempoText b]
    | none, some b => ["Tempo: " ++ tempoText b]
    | _, none => []) ++
  (match before.timeSignature, after.timeSignature with
    | some a, some b =>
      if a = b then [] else ["Time signature: " ++ timeSigText a ++ " → " ++ timeSigText b]
    | _, _ => []) ++
  creditChanges "Title" before.title after.title ++
  creditChanges "Author" before.author after.author ++
  creditChanges "Genre" before.genre after.genre ++
  (if before.channels = after.channels then []
    else ["Channels: " ++ toString before.channels ++ " → " ++ toString after.channels]) ++
  describeSetChange "Section" before.markers after.markers ++
  (match before.version, after.version with
    | some a, some b => if a = b then [] else ["Saved by FL " ++ a ++ " → " ++ b]
    | _, _ => [])

/-- How much more often each name is in the second list. -/
def nameDeltas (before after : List String) : List (String × Int) :=
  tally some (fun _ count => count.getD 0 + 1) after
    (tally some (fun _ count => count.getD 0 + -1) before [])

def deltaRow : String × Int → Option ChangeRow
  | (name, delta) =>
    if 0 < delta then some ⟨.added, .add, name, none, none⟩
    else if delta < 0 then some ⟨.removed, .remove, name, none, none⟩
    else none

def namedRows (before after : List String) : List ChangeRow :=
  ((nameDeltas before after).filterMap deltaRow).take maxRowsPerChannel

def mixerDiff (before after : FlStudioMetadata) : Option ChannelDiff :=
  let rows := namedRows before.insertNames after.insertNames
  if rows.isEmpty then none else some ⟨"Mixer", .audio, .modify, 0, 0, 0, rows⟩

def patternDiff (before after : FlStudioMetadata) : Option ChannelDiff :=
  let rows := namedRows before.patternNames after.patternNames
  if rows.isEmpty then none
  else
    let added := (rows.filter fun row => row.kind = .add).length
    let removed := rows.length - added
    some ⟨"Patterns", .midi, .modify, added, removed, 0, rows⟩

def instances (count : Nat) : String :=
  if count = 1 then "1 instance" else toString count ++ " instances"

def pluginIndex (metadata : FlStudioMetadata) : List (String × String × Nat) :=
  (metadata.plugins.map fun plugin => (plugin.id.display, plugin.name, plugin.instances)).foldl
    (fun m e => SortedAssoc.insert e.1 e.2 m) []

def pluginRows (before after : List (String × String × Nat)) : List ChangeRow :=
  (after.filterMap fun (id, name, count) =>
    match get? before id with
    | none => some ⟨.fxAdded, .add, name, none, some (instances count)⟩
    | some (_, was) =>
      if was = count then none
      else some ⟨.instrumentChanged, .modify, name, some (instances was), some (instances count)⟩) ++
  before.filterMap fun (id, name, count) =>
    if (get? after id).isNone then
      some ⟨.fxRemoved, .remove, name, some (instances count), none⟩
    else none

def pluginDiff (before after : FlStudioMetadata) : Option ChannelDiff :=
  let rows := pluginRows (pluginIndex before) (pluginIndex after)
  if rows.isEmpty then none
  else some ⟨"Plugins", .plugin, .modify, 0, 0, 0, rows.take maxRowsPerChannel⟩

def channelDiffs (before after : FlStudioMetadata) : List ChannelDiff :=
  (mixerDiff before after).toList ++ (pluginDiff before after).toList ++
    (patternDiff before after).toList

section Snapshots
variable (base64Decode : String → Except String (List UInt8))

def streamFromValue (snapshot : Value) : Option Stream := do
  let format ← (snapshot.get "format").bind readFormat
  if format ≠ .flStudio then none
  else
    let document ← (snapshot.get "project").bind readDocument
    (fromDocument base64Decode document).toOption

def structuredDiff (ancestor current : Value) : Option ProjectDiff := do
  let before ← streamFromValue base64Decode ancestor
  let after ← streamFromValue base64Decode current
  let beforeMeta := extract before
  let afterMeta := extract after
  return {
    projectChanges := projectChanges beforeMeta afterMeta
    timeSig := afterMeta.timeSignature.getD (4, 4)
    channels := channelDiffs beforeMeta afterMeta }

end Snapshots

/-! What the card of the patterns counts. -/

/-- The names of the patterns, one for each occurrence. -/
def patternOccurrences (stream : Stream) : List String :=
  ((stream.events.filter fun event => event.id = eventPatternName).map fun event =>
    eventText event.payload (usesUtf16 stream.majorVersion)).filter fun text =>
      !text.toList.all isWhitespace

theorem readEvent_patternNames (utf16 : Bool) (reading : Reading) (event : Event) :
    (readEvent utf16 reading event).metadata.patternNames =
      if event.id = eventPatternName then
        pushNamed reading.metadata.patternNames (eventText event.payload utf16)
      else reading.metadata.patternNames := by
  by_cases h : event.id = eventPatternName
  · have hids : eventPatternName ≠ eventTempo ∧ eventPatternName ≠ eventTimeSigNumerator ∧
        eventPatternName ≠ eventTimeSigDenominator ∧ eventPatternName ≠ eventTitle ∧
        eventPatternName ≠ eventAuthor ∧ eventPatternName ≠ eventGenre := by decide
    simp only [readEvent, h, hids, if_false, if_true]
  · simp only [readEvent, if_neg h]
    repeat' split
    all_goals rfl

theorem foldl_readEvent_patternNames (utf16 : Bool) (events : List Event) (reading : Reading) :
    (events.foldl (readEvent utf16) reading).metadata.patternNames =
      reading.metadata.patternNames ++
        ((events.filter fun event => event.id = eventPatternName).map fun event =>
          eventText event.payload utf16).filter fun text => !text.toList.all isWhitespace := by
  induction events generalizing reading with
  | nil => simp
  | cons event rest ih =>
    rw [List.foldl_cons, ih, readEvent_patternNames]
    by_cases h : event.id = eventPatternName
    · by_cases hblank : (eventText event.payload utf16).toList.all isWhitespace = true
      · simp [h, pushNamed, hblank]
      · simp [h, pushNamed, hblank]
    · simp [h]

theorem extract_patternNames (stream : Stream) :
    (extract stream).patternNames = patternOccurrences stream :=
  foldl_readEvent_patternNames _ stream.events (startReading stream)

section Counting
variable (before after : List String)

theorem get?_tally_step (step : Int) (names : List String) (m : List (String × Int))
    (name : String) :
    get? (tally some (fun _ count => count.getD 0 + step) names m) name =
      if name ∈ names then some ((get? m name).getD 0 + step * names.count name)
      else get? m name := by
  rw [get?_tally, foldl_some_getD (fun count _ => count + step) 0]
  have hsum : ∀ (l : List String) (z : Int), l.foldl (fun count _ => count + step) z =
      z + step * l.length := by
    intro l
    induction l with
    | nil => intro z; simp
    | cons a rest ih => intro z; rw [List.foldl_cons, ih, List.length_cons]; push_cast; ring
  have hcount : (names.filter fun a => some a = some name).length = names.count name := by
    rw [List.count_eq_length_filter]
    congr 1
    exact List.filter_congr fun a _ => by by_cases h : a = name <;> simp [h]
  have hnil : (names.filter fun a => some a = some name) = [] ↔ name ∉ names := by
    rw [← List.length_eq_zero_iff, hcount, List.count_eq_zero]
  by_cases hmem : name ∈ names
  · rw [if_neg (mt hnil.mp (not_not.mpr hmem)), if_pos hmem, hsum, hcount]
  · rw [if_pos (hnil.mpr hmem), if_neg hmem]

theorem sorted_nameDeltas : Sorted (nameDeltas before after) :=
  sorted_tally after (sorted_tally before List.Pairwise.nil)

theorem get?_nameDeltas (name : String) :
    get? (nameDeltas before after) name =
      if name ∈ before ∨ name ∈ after then some ((after.count name : Int) - before.count name)
      else none := by
  rw [nameDeltas, get?_tally_step, get?_tally_step, get?_nil]
  by_cases hb : name ∈ before <;> by_cases ha : name ∈ after
  · simp [hb, ha]
    omega
  · simp [hb, ha, List.count_eq_zero.mpr ha]
  · simp [hb, ha, List.count_eq_zero.mpr hb]
  · simp [hb, ha]

/-- The rows before they are cut off. -/
def changedRows : List ChangeRow := (nameDeltas before after).filterMap deltaRow

theorem deltaRow_some {e : String × Int} {row : ChangeRow} (h : deltaRow e = some row) :
    row.target = e.1 ∧ (row.kind = .add ∧ 0 < e.2 ∨ row.kind = .remove ∧ e.2 < 0) := by
  obtain ⟨name, delta⟩ := e
  rw [deltaRow] at h
  split at h
  · rename_i hpos
    cases h
    exact ⟨rfl, .inl ⟨rfl, hpos⟩⟩
  · split at h
    · rename_i hneg
      cases h
      exact ⟨rfl, .inr ⟨rfl, hneg⟩⟩
    · cases h

theorem targets_sublist (m : List (String × Int)) :
    ((m.filterMap deltaRow).map ChangeRow.target).Sublist (m.map Prod.fst) := by
  induction m with
  | nil => exact List.Sublist.slnil
  | cons e rest ih =>
    cases h : deltaRow e with
    | none => rw [List.filterMap_cons_none h]; exact ih.cons _
    | some row =>
      rw [List.filterMap_cons_some h, List.map_cons, List.map_cons, (deltaRow_some h).1]
      exact ih.cons_cons _

theorem nodup_targets : ((changedRows before after).map ChangeRow.target).Nodup := by
  refine (targets_sublist _).nodup (List.pairwise_map.mpr ?_)
  exact (sorted_nameDeltas before after).imp ne_of_lt

/-- A name has a row where it is not as often in both lists, and the row says which way. -/
theorem mem_changedRows {before after : List String} {row : ChangeRow} (h : row ∈ changedRows before after) :
    (row.kind = .add ∧ before.count row.target < after.count row.target) ∨
      (row.kind = .remove ∧ after.count row.target < before.count row.target) := by
  obtain ⟨⟨name, delta⟩, hmem, hrow⟩ := List.mem_filterMap.mp h
  obtain ⟨htarget, hkind⟩ := deltaRow_some hrow
  have hget := get?_of_mem (sorted_nameDeltas before after) hmem
  rw [get?_nameDeltas] at hget
  split at hget
  · cases hget
    rw [htarget]
    rcases hkind with ⟨hkind, hdelta⟩ | ⟨hkind, hdelta⟩
    · exact .inl ⟨hkind, by simpa using hdelta⟩
    · exact .inr ⟨hkind, by simpa using hdelta⟩
  · cases hget

theorem exists_changedRow {before after : List String} {name : String}
    (h : before.count name ≠ after.count name) :
    ∃ row ∈ changedRows before after, row.target = name := by
  have hmem : name ∈ before ∨ name ∈ after := by
    by_contra hnone
    rw [not_or] at hnone
    exact h ((List.count_eq_zero.mpr hnone.1).trans (List.count_eq_zero.mpr hnone.2).symm)
  have hget := get?_nameDeltas before after name
  rw [if_pos hmem] at hget
  have hentry := mem_of_get? hget
  have hrow : ∃ row, deltaRow (name, (after.count name : Int) - before.count name) = some row := by
    rw [deltaRow]
    split
    · exact ⟨_, rfl⟩
    · split
      · exact ⟨_, rfl⟩
      · omega
  obtain ⟨row, hrow⟩ := hrow
  exact ⟨row, List.mem_filterMap.mpr ⟨_, hentry, hrow⟩, (deltaRow_some hrow).1⟩

/-- The names that are not as often in both lists. -/
def changedNames : List String :=
  (before ++ after).dedup.filter fun name => before.count name ≠ after.count name

theorem length_changedRows :
    (changedRows before after).length = (changedNames before after).length := by
  have hperm : ((changedRows before after).map ChangeRow.target).Perm (changedNames before after) := by
    apply (List.perm_ext_iff_of_nodup (nodup_targets before after) ((List.nodup_dedup _).filter _)).mpr
    intro name
    constructor
    · intro hname
      obtain ⟨row, hrow, rfl⟩ := List.mem_map.mp hname
      have hne : before.count row.target ≠ after.count row.target := by
        rcases mem_changedRows hrow with ⟨_, hlt⟩ | ⟨_, hlt⟩ <;> omega
      have hmem : row.target ∈ before ++ after := by
        by_contra hnone
        rw [List.mem_append, not_or] at hnone
        exact hne ((List.count_eq_zero.mpr hnone.1).trans (List.count_eq_zero.mpr hnone.2).symm)
      exact List.mem_filter.mpr ⟨List.mem_dedup.mpr hmem, by simpa using hne⟩
    · intro hname
      obtain ⟨row, hrow, rfl⟩ := exists_changedRow (by simpa using (List.mem_filter.mp hname).2)
      exact List.mem_map_of_mem hrow
  simpa using hperm.length_eq

def rowsOf (kind : ChangeKind) (rows : List ChangeRow) : List ChangeRow :=
  rows.filter fun row => row.kind = kind

theorem length_rowsOf_add_remove {rows : List ChangeRow}
    (h : ∀ row ∈ rows, row.kind = .add ∨ row.kind = .remove) :
    (rowsOf .add rows).length + (rowsOf .remove rows).length = rows.length := by
  induction rows with
  | nil => rfl
  | cons row rest ih =>
    have htail := ih fun r hr => h r (List.mem_cons_of_mem _ hr)
    rcases h row List.mem_cons_self with hkind | hkind
    · simp [rowsOf, hkind] at htail ⊢
      omega
    · simp [rowsOf, hkind] at htail ⊢
      omega

theorem rowsOf_take_le (kind : ChangeKind) (n : Nat) (rows : List ChangeRow) :
    (rowsOf kind (rows.take n)).length ≤ (rowsOf kind rows).length :=
  ((List.take_sublist n rows).filter _).length_le

/-- What the second list has more of, by multiplicity. -/
def surplus (before after : List String) : Multiset String := (after : Multiset String) - before

theorem count_surplus (name : String) :
    (surplus before after).count name = after.count name - before.count name := by
  rw [surplus, Multiset.count_sub, Multiset.coe_count, Multiset.coe_count]

/-- A row stands for a name once. -/
theorem dedup_surplus {kind : ChangeKind} {less more : List String}
    (h : ∀ row ∈ changedRows before after,
      row.kind = kind ↔ less.count row.target < more.count row.target)
    (hname : ∀ name, less.count name < more.count name → before.count name ≠ after.count name) :
    (((rowsOf kind (changedRows before after)).map ChangeRow.target : List String) :
      Multiset String) = (surplus less more).dedup := by
  have hnodup : ((rowsOf kind (changedRows before after)).map ChangeRow.target).Nodup :=
    (nodup_targets before after).sublist (List.filter_sublist.map _)
  apply (Multiset.Nodup.ext (Multiset.coe_nodup.mpr hnodup) (Multiset.nodup_dedup _)).mpr
  intro name
  rw [Multiset.mem_coe, Multiset.mem_dedup, ← Multiset.count_pos, count_surplus, Nat.sub_pos_iff_lt]
  constructor
  · intro hmem
    obtain ⟨row, hrow, rfl⟩ := List.mem_map.mp hmem
    obtain ⟨hrow, hkind⟩ := List.mem_filter.mp hrow
    exact (h row hrow).mp (by simpa using hkind)
  · intro hlt
    obtain ⟨row, hrow, rfl⟩ := exists_changedRow (hname name hlt)
    exact List.mem_map_of_mem (List.mem_filter.mpr ⟨hrow, by simpa using (h row hrow).mpr hlt⟩)

theorem dedup_added :
    (((rowsOf .add (changedRows before after)).map ChangeRow.target : List String) :
      Multiset String) = (surplus before after).dedup := by
  apply dedup_surplus before after
  · intro row hrow
    rcases mem_changedRows hrow with ⟨hkind, hlt⟩ | ⟨hkind, hlt⟩ <;> simp [hkind] <;> omega
  · intro name hlt
    omega

theorem dedup_removed :
    (((rowsOf .remove (changedRows before after)).map ChangeRow.target : List String) :
      Multiset String) = (surplus after before).dedup := by
  apply dedup_surplus before after
  · intro row hrow
    rcases mem_changedRows hrow with ⟨hkind, hlt⟩ | ⟨hkind, hlt⟩ <;> simp [hkind] <;> omega
  · intro name hlt
    omega

theorem card_dedup_eq_iff {α : Type} [DecidableEq α] (s : Multiset α) :
    s.dedup.card = s.card ↔ s.Nodup := by
  rw [← Multiset.dedup_eq_self]
  exact ⟨fun h => Multiset.eq_of_le_of_card_le (Multiset.dedup_le s) h.ge, congrArg Multiset.card⟩

theorem nodup_surplus_iff :
    (surplus before after).Nodup ↔ ∀ name, after.count name ≤ before.count name + 1 := by
  rw [Multiset.nodup_iff_count_le_one]
  refine forall_congr' fun name => ?_
  rw [count_surplus]
  omega

/-- Every name is at most once more in one list than in the other, and few enough names differ. -/
def Shown : Prop :=
  (∀ name, after.count name ≤ before.count name + 1 ∧ before.count name ≤ after.count name + 1) ∧
    (changedNames before after).length ≤ maxRowsPerChannel

/-- Rows count occurrences where each changed name changes by one and all have a row. -/
theorem namedRows_count_iff :
    ((rowsOf .add (namedRows before after)).length = (surplus before after).card ∧
      (namedRows before after).length - (rowsOf .add (namedRows before after)).length =
        (surplus after before).card) ↔ Shown before after := by
  have hrows : namedRows before after = (changedRows before after).take maxRowsPerChannel := rfl
  have hkinds : ∀ row ∈ changedRows before after, row.kind = .add ∨ row.kind = .remove :=
    fun row hrow => (mem_changedRows hrow).imp And.left And.left
  have hall := length_rowsOf_add_remove hkinds
  have hshown := length_rowsOf_add_remove
    fun row (hrow : row ∈ (changedRows before after).take maxRowsPerChannel) =>
      hkinds row (List.mem_of_mem_take hrow)
  have hadded := congrArg Multiset.card (dedup_added before after)
  have hremoved := congrArg Multiset.card (dedup_removed before after)
  rw [Multiset.coe_card, List.length_map] at hadded hremoved
  have haddedLe := Multiset.card_le_card (Multiset.dedup_le (surplus before after))
  have hremovedLe := Multiset.card_le_card (Multiset.dedup_le (surplus after before))
  have haddTake := rowsOf_take_le .add maxRowsPerChannel (changedRows before after)
  have hremoveTake := rowsOf_take_le .remove maxRowsPerChannel (changedRows before after)
  have hlength : ((changedRows before after).take maxRowsPerChannel).length =
      min maxRowsPerChannel (changedRows before after).length := List.length_take
  have hcond : Shown before after ↔ (surplus before after).dedup.card = (surplus before after).card ∧
      (surplus after before).dedup.card = (surplus after before).card ∧
      (changedRows before after).length ≤ maxRowsPerChannel := by
    rw [card_dedup_eq_iff, card_dedup_eq_iff, nodup_surplus_iff, nodup_surplus_iff, Shown,
      length_changedRows, forall_and, and_assoc]
  rw [hcond, hrows]
  constructor
  · rintro ⟨hadd, hremove⟩
    refine ⟨?_, ?_, ?_⟩ <;> omega
  · rintro ⟨hadd, hremove, hfew⟩
    rw [List.take_of_length_le hfew] at hshown ⊢
    constructor <;> omega

end Counting

theorem patternDiff_counts (before after : FlStudioMetadata) :
    ((patternDiff before after).toList.map ChannelDiff.clipsAdded).sum =
        (rowsOf .add (namedRows before.patternNames after.patternNames)).length ∧
      ((patternDiff before after).toList.map ChannelDiff.clipsRemoved).sum =
        (namedRows before.patternNames after.patternNames).length -
          (rowsOf .add (namedRows before.patternNames after.patternNames)).length := by
  rw [patternDiff]
  cases h : namedRows before.patternNames after.patternNames with
  | nil => exact ⟨rfl, rfl⟩
  | cons row rest => exact ⟨rfl, rfl⟩

/-- Only the card of the patterns counts. -/
theorem channelDiffs_counts (before after : FlStudioMetadata) :
    ((channelDiffs before after).map ChannelDiff.clipsAdded).sum =
        ((patternDiff before after).toList.map ChannelDiff.clipsAdded).sum ∧
      ((channelDiffs before after).map ChannelDiff.clipsRemoved).sum =
        ((patternDiff before after).toList.map ChannelDiff.clipsRemoved).sum := by
  have hmixer : ((mixerDiff before after).toList.map ChannelDiff.clipsAdded).sum = 0 ∧
      ((mixerDiff before after).toList.map ChannelDiff.clipsRemoved).sum = 0 := by
    rw [mixerDiff]
    cases (namedRows before.insertNames after.insertNames).isEmpty <;> exact ⟨rfl, rfl⟩
  have hplugin : ((pluginDiff before after).toList.map ChannelDiff.clipsAdded).sum = 0 ∧
      ((pluginDiff before after).toList.map ChannelDiff.clipsRemoved).sum = 0 := by
    rw [pluginDiff]
    cases (pluginRows (pluginIndex before) (pluginIndex after)).isEmpty <;> exact ⟨rfl, rfl⟩
  simp only [channelDiffs, List.map_append, List.sum_append, hmixer, hplugin, Nat.zero_add, and_self]

section Snapshots
variable {base64Decode : String → Except String (List UInt8)}

/-- The comparison of two snapshots counts pattern occurrences rightly exactly where each name
changes by one and all changes have a row. -/
theorem pattern_totals {ancestor current : Value} {before after : Stream}
    (hbefore : streamFromValue base64Decode ancestor = some before)
    (hafter : streamFromValue base64Decode current = some after) :
    ∃ diff, structuredDiff base64Decode ancestor current = some diff ∧
      ((diff.totalClipsAdded = (surplus (patternOccurrences before) (patternOccurrences after)).card ∧
        diff.totalClipsRemoved =
          (surplus (patternOccurrences after) (patternOccurrences before)).card) ↔
        Shown (patternOccurrences before) (patternOccurrences after)) := by
  refine ⟨_, by rw [structuredDiff, hbefore, hafter]; rfl, ?_⟩
  have hcounts := channelDiffs_counts (extract before) (extract after)
  have hpatterns := patternDiff_counts (extract before) (extract after)
  rw [extract_patternNames, extract_patternNames] at hpatterns
  rw [ProjectDiff.totalClipsAdded, ProjectDiff.totalClipsRemoved, hcounts.1, hcounts.2, hpatterns.1,
    hpatterns.2]
  exact namedRows_count_iff _ _

end Snapshots

/-! One pattern name, once and three times. -/

section Stored
variable {Hash : Type} {F : Formats (List UInt8) Hash} {C : Codecs (List UInt8) Hash}

/-- The snapshot of a stream is read back as the stream. -/
theorem streamFromValue_wrapped
    (hbase64 : ∀ bytes, C.base64Decode (C.base64Encode bytes) = .ok bytes) {stream : Stream}
    (h : ∀ event ∈ stream.events, event.Sized) :
    streamFromValue C.base64Decode ((wrapped C stream).toValue F) = some stream := by
  have hformat : ((wrapped C stream).toValue F).get "format" = some (.string "fl-studio") := by
    simp [wrapped, PortableSnapshot.toValue, structValue, Value.get, skipNone, skipEmpty, get?_insert,
      ProjectFormat.name]
  have hproject : ((wrapped C stream).toValue F).get "project" =
      some (toDocument C.base64Encode stream).toValue := by
    simp [wrapped, PortableSnapshot.toValue, structValue, Value.get, skipNone, skipEmpty, get?_insert]
  have hread : readFormat (.string "fl-studio") = some .flStudio := rfl
  rw [streamFromValue, hformat, hproject, Option.bind_some, Option.bind_some, hread,
    readDocument_toValue]
  simp [fromDocument_toDocument hbase64 h, Except.toOption]

end Stored

/-- A project with a pattern of one letter, so many times. -/
def drums (times : Nat) : Stream where
  header := ⟨0, 1, 96⟩
  events := List.replicate times ⟨eventPatternName, [0x44, 0]⟩

theorem drums_sized (times : Nat) : ∀ event ∈ (drums times).events, event.Sized := by
  intro event hevent
  rw [List.eq_of_mem_replicate hevent]
  intro width hwidth
  cases hwidth

def drumsValue (times : Nat) : Value := (wrapped songCodecs (drums times)).toValue plainFormats

theorem drumsValue_read (times : Nat) :
    streamFromValue songCodecs.base64Decode (drumsValue times) = some (drums times) :=
  streamFromValue_wrapped songCodecs_base64 (drums_sized times)

theorem drums_totals :
    ∃ diff, structuredDiff songCodecs.base64Decode (drumsValue 1) (drumsValue 2) = some diff ∧
      ((diff.totalClipsAdded =
          (surplus (patternOccurrences (drums 1)) (patternOccurrences (drums 2))).card ∧
        diff.totalClipsRemoved =
          (surplus (patternOccurrences (drums 2)) (patternOccurrences (drums 1))).card) ↔
        Shown (patternOccurrences (drums 1)) (patternOccurrences (drums 2))) :=
  pattern_totals (drumsValue_read 1) (drumsValue_read 2)

theorem drums_occurrences :
    patternOccurrences (drums 1) = ["D"] ∧ patternOccurrences (drums 3) = ["D", "D", "D"] := by
  decide +kernel

/-- Two more occurrences of a name count as one. -/
theorem drums_miscounted :
    ∃ diff, structuredDiff songCodecs.base64Decode (drumsValue 1) (drumsValue 3) = some diff ∧
      diff.totalClipsAdded = 1 ∧
      (surplus (patternOccurrences (drums 1)) (patternOccurrences (drums 3))).card = 2 := by
  refine ⟨_, by rw [structuredDiff, drumsValue_read, drumsValue_read]; rfl, ?_, ?_⟩
  · rw [ProjectDiff.totalClipsAdded, (channelDiffs_counts _ _).1, (patternDiff_counts _ _).1,
      extract_patternNames, extract_patternNames, drums_occurrences.1, drums_occurrences.2]
    decide +kernel
  · rw [drums_occurrences.1, drums_occurrences.2]
    decide +kernel

end FlStudio

end AuruPm
