import AuruPm.ClipDiff
import AuruPm.DawprojectAssets
import AuruPm.PathAliases
import AuruPm.PluginCollectors

/-!
# Comparing two versions of a DAWproject

`dawproject/diff.rs`: tracks are paired by what survives a renumbering of the document before their
ids are looked at, and their devices and clips are compared without generated ids. How a number or
a place on the timeline is printed is left open.
-/

namespace AuruPm

set_option autoImplicit false

open SortedAssoc FloatText

namespace Dawproject

/-- The kinds of change that are reported here. -/
inductive ChangeTag where
  | added
  | removed
  | renamed
  | moved
  | length
  | content
  | pluginPreset
  | volume
  | pan
  | muted
  | fxAdded
  | fxRemoved
  | instrumentChanged
  deriving DecidableEq

structure ChangeRow where
  tag : ChangeTag
  kind : ChangeKind
  target : String
  before : Option String
  after : Option String
  deriving DecidableEq

structure ChannelDiff where
  name : String
  kind : ChannelKind
  status : ChangeKind
  clipsAdded : Nat
  clipsRemoved : Nat
  clipsModified : Nat
  rows : List ChangeRow
  deriving DecidableEq

structure ProjectDiff where
  projectChanges : List String
  timeSig : Nat × Nat
  channels : List ChannelDiff
  deriving DecidableEq

def ProjectDiff.totalClipsAdded (diff : ProjectDiff) : Nat :=
  (diff.channels.map ChannelDiff.clipsAdded).sum

def ProjectDiff.totalClipsRemoved (diff : ProjectDiff) : Nat :=
  (diff.channels.map ChannelDiff.clipsRemoved).sum

def ProjectDiff.isEmpty (diff : ProjectDiff) : Bool :=
  diff.projectChanges.isEmpty && diff.channels.isEmpty

/-! What a project is. -/

/-- `resolve`: child by child. -/
def resolve (element : XmlElement) : List String → Option XmlElement
  | [] => some element
  | tag :: path => (element.child tag).bind fun child => resolve child path

inductive DawprojectTrackKind where
  | notes
  | audio
  | hybrid
  | group
  | effect
  | submix
  | master
  | other
  deriving DecidableEq

def isAsciiWhitespace (c : Char) : Bool :=
  c = ' ' || c = '\t' || c = '\n' || c = '\x0c' || c = '\r'

/-- Whether one of the words of a text is this one. -/
def hasWord (word text : String) : Bool :=
  (text.toList.splitOnP isAsciiWhitespace).any fun piece => piece = word.toList

def trackKind (track : XmlElement) : DawprojectTrackKind :=
  let role := (track.child "Channel").bind fun channel => channel.attributeValue "role"
  if role = some "master" then .master
  else if role = some "effect" then .effect
  else if role = some "submix" then .submix
  else if track.childElements.any fun element => element.tag = "Track" then .group
  else
    let content := (track.attributeValue "contentType").getD ""
    if hasWord "audio" content then if hasWord "notes" content then .hybrid else .audio
    else if hasWord "notes" content then .notes
    else .other

def stringAttribute (element : XmlElement) (name : String) : Option String :=
  (element.attributeValue name).filter (· ≠ "")

def numberAttribute (element : XmlElement) (name : String) : Option Float :=
  (element.attributeValue name).bind parseFloat

def contentText : XmlContent → String
  | .text text => text
  | .cdata cdata => cdata
  | _ => ""

def childText (root : XmlElement) (tag : String) : Option String :=
  (root.child tag).bind fun child =>
    let value := Ableton.trimText (String.join (child.children.map contentText))
    if value = "" then none else some value

def readTimeSignature (root : XmlElement) : Option (Nat × Nat) := do
  let signature ← resolve root ["Transport", "TimeSignature"]
  let numerator ← (signature.attributeValue "numerator").bind Ableton.parseU32
  let denominator ← (signature.attributeValue "denominator").bind Ableton.parseU32
  return (numerator, denominator)

/-- The metadata that the comparison reads. -/
structure DawprojectMetadata where
  formatVersion : Option String
  applicationName : Option String
  applicationVersion : Option String
  title : Option String
  artist : Option String
  producer : Option String
  genre : Option String
  tempo : Option Float
  timeSignature : Option (Nat × Nat)
  sceneCount : Nat
  markerCount : Nat
  plugins : List PluginRef

def DawprojectMetadata.applicationLabel (metadata : DawprojectMetadata) : Option String :=
  let label := String.intercalate " "
    (metadata.applicationName.toList ++ metadata.applicationVersion.toList)
  if label = "" then none else some label

def extractParts (root : XmlElement) (documentMetadata : Option XmlElement) : DawprojectMetadata :=
  let application := root.child "Application"
  { formatVersion := stringAttribute root "version"
    applicationName := application.bind fun node => stringAttribute node "name"
    applicationVersion := application.bind fun node => stringAttribute node "version"
    title := documentMetadata.bind fun node => childText node "Title"
    artist := documentMetadata.bind fun node => childText node "Artist"
    producer := documentMetadata.bind fun node => childText node "Producer"
    genre := documentMetadata.bind fun node => childText node "Genre"
    tempo := (resolve root ["Transport", "Tempo"]).bind fun node => numberAttribute node "value"
    timeSignature := readTimeSignature root
    sceneCount := (root.child "Scenes").elim 0 fun scenes =>
      (scenes.childElements.filter fun node => node.tag = "Scene").length
    markerCount := (root.descendants.filter fun node => node.tag = "Marker").length
    plugins := collectPlugins root }

/-! Changes of the whole project. -/

/-- A value that may be missing, before and after. -/
def changeTexts {A : Type} [DecidableEq A] (label : String) (text : A → String)
    (before after : Option A) : List String :=
  if before = after then []
  else
    match before, after with
    | some a, some b => [label ++ ": " ++ text a ++ " → " ++ text b]
    | none, some b => [label ++ ": " ++ text b]
    | some a, none => [label ++ " removed (was " ++ text a ++ ")"]
    | none, none => []

/-- `f64::EPSILON` -/
def epsilon : Float := Float.ofBits 0x3CB0000000000000

def tempoChanges (fmtF64 : Float → String) : Option Float → Option Float → List String
  | some a, some b =>
    if epsilon < (a - b).abs then ["Tempo: " ++ fmtF64 a ++ " → " ++ fmtF64 b] else []
  | none, some b => ["Tempo: " ++ fmtF64 b]
  | some a, none => ["Tempo removed (was " ++ fmtF64 a ++ ")"]
  | none, none => []

def savedWith (before after : DawprojectMetadata) : List String :=
  if before.applicationName = after.applicationName ∧
      before.applicationVersion = after.applicationVersion then []
  else
    match before.applicationLabel, after.applicationLabel with
    | some a, some b => ["Saved with: " ++ a ++ " → " ++ b]
    | _, _ => []

/-- `push_count_change` -/
def countChange (label : String) (before after : Nat) : List String :=
  if before = after then [] else [label ++ ": " ++ toString before ++ " → " ++ toString after]

def timeSignatureText (signature : Nat × Nat) : String :=
  toString signature.1 ++ "/" ++ toString signature.2

def projectChanges (fmtF64 : Float → String) (before after : DawprojectMetadata) : List String :=
  changeTexts "DAWproject format" id before.formatVersion after.formatVersion ++
  tempoChanges fmtF64 before.tempo after.tempo ++
  changeTexts "Time signature" timeSignatureText before.timeSignature after.timeSignature ++
  changeTexts "Title" id before.title after.title ++
  changeTexts "Artist" id before.artist after.artist ++
  changeTexts "Producer" id before.producer after.producer ++
  changeTexts "Genre" id before.genre after.genre ++
  savedWith before after ++
  countChange "Scenes" before.sceneCount after.sceneCount ++
  countChange "Markers" before.markerCount after.markerCount

def resourceValues (snapshot : Value) : List (String × String) :=
  (((snapshot.get "resources").bind Value.asArray).getD []).filterMap fun resource => do
    let path ← (resource.get "id").bind Value.asStr
    let value ← ((resource.get "hash").or (resource.get "data")).bind Value.asStr
    return (path, value)

def resourceIndex (snapshot : Value) : List (String × String) :=
  (resourceValues snapshot).foldl (fun m e => insert e.1 e.2 m) []

def resourceChanges (before after : List (String × String)) : List String :=
  (after.filterMap fun e =>
    match get? before e.1 with
    | none => some ("Embedded resource added: " ++ e.1)
    | some old => if old = e.2 then none else some ("Embedded resource changed: " ++ e.1)) ++
  (before.filter fun e => (get? after e.1).isNone).map fun e => "Embedded resource removed: " ++ e.1

/-! Equality without generated ids. -/

def attributesWithoutId (attributes : List (String × String)) : List (String × String) :=
  attributes.filter fun e => e.1 ≠ "id"

mutual
def elementsEqualIgnoringGeneratedIds : XmlElement → XmlElement → Bool
  | .mk tag _ attributes children, .mk tag' _ attributes' children' =>
    tag = tag' && attributesWithoutId attributes = attributesWithoutId attributes' &&
      contentsEqualIgnoringGeneratedIds children children'
def contentsEqualIgnoringGeneratedIds : List XmlContent → List XmlContent → Bool
  | [], [] => true
  | .element e :: rest, .element e' :: rest' =>
    elementsEqualIgnoringGeneratedIds e e' && contentsEqualIgnoringGeneratedIds rest rest'
  | .text t :: rest, .text t' :: rest' => t = t' && contentsEqualIgnoringGeneratedIds rest rest'
  | .cdata t :: rest, .cdata t' :: rest' => t = t' && contentsEqualIgnoringGeneratedIds rest rest'
  | .comment t :: rest, .comment t' :: rest' =>
    t = t' && contentsEqualIgnoringGeneratedIds rest rest'
  | _, _ => false
end

/-! Tracks. -/

/-- A track with its clips on the timeline. -/
structure TrackView where
  element : XmlElement
  clips : List XmlElement

def trackName (track : XmlElement) : String :=
  ((track.attributeValue "name").filter (· ≠ "")).getD "Untitled track"

def channelKind (track : XmlElement) : ChannelKind :=
  match trackKind track with
  | .notes => .midi
  | .audio => .audio
  | _ => .other

def clipName (clip : XmlElement) : String :=
  ((clip.attributeValue "name").filter (· ≠ "")).getD "Untitled clip"

def clipsForTrack (root : XmlElement) (trackId : String) : List XmlElement :=
  match root.child "Arrangement" with
  | none => []
  | some arrangement =>
    let lanes := arrangement.descendants.filter fun lane =>
      lane.tag = "Lanes" ∧ lane.attributeValue "track" = some trackId
    let clips := (lanes.flatMap XmlElement.childElements).filter fun element =>
      element.tag = "Clips"
    (clips.flatMap XmlElement.childElements).filter fun element => element.tag = "Clip"

def trackEntry (root : XmlElement) (track : XmlElement × Nat) : String × TrackView :=
  (track.1.id.getD ("@" ++ toString track.2), ⟨track.1, (track.1.id.map (clipsForTrack root)).getD []⟩)

/-- Tracks by id, or by number where they have none. -/
def tracks (root : XmlElement) : List (String × TrackView) :=
  match root.child "Structure" with
  | none => []
  | some structure' =>
    (((structure'.descendants.filter fun element => element.tag = "Track").zipIdx.map
      (trackEntry root))).foldl (fun m e => insert e.1 e.2 m) []

/-! Devices. -/

def deviceBase (device : XmlElement) : String :=
  device.tag ++ ":" ++ ((((device.attributeValue "deviceID").or
    (device.attributeValue "name")).filter (· ≠ "")).getD device.tag)

/-- Devices with their keys, given how often each kind of device was seen. -/
def keyDevices : List (String × Nat) → List XmlElement → List (String × XmlElement)
  | _, [] => []
  | occurrences, device :: rest =>
    let base := deviceBase device
    let occurrence := (get? occurrences base).getD 0
    (base ++ "#" ++ toString occurrence, device) ::
      keyDevices (insert base (occurrence + 1) occurrences) rest

def devices (track : XmlElement) : List (String × XmlElement) :=
  (keyDevices [] ((resolve track ["Channel", "Devices"]).elim [] XmlElement.childElements)).foldl
    (fun m e => insert e.1 e.2 m) []

def deviceIdentity (track : XmlElement) : List String := (devices track).map Prod.fst

def deviceRows (before after : List (String × XmlElement)) : List ChangeRow :=
  (after.filterMap fun e =>
    match get? before e.1 with
    | none => some ⟨.fxAdded, .add, deviceName e.2, none, none⟩
    | some previous =>
      if elementsEqualIgnoringGeneratedIds previous e.2 then none
      else some ⟨.pluginPreset, .modify, deviceName e.2, none, some "device state changed"⟩) ++
  (before.filter fun e => (get? after e.1).isNone).map fun e =>
    ⟨.fxRemoved, .remove, deviceName e.2, none, none⟩

/-! Mixing. -/

def channelParameter (track : XmlElement) (tag : String) : Option String :=
  (track.child "Channel").bind fun channel =>
    (channel.child tag).bind fun parameter => parameter.attributeValue "value"

def mixRow (before after : XmlElement) (tag : ChangeTag) (element : String) : List ChangeRow :=
  if channelParameter before element = channelParameter after element then []
  else [⟨tag, .modify, element, channelParameter before element, channelParameter after element⟩]

def mixRows (before after : XmlElement) : List ChangeRow :=
  mixRow before after .volume "Volume" ++ mixRow before after .pan "Pan" ++
    mixRow before after .muted "Mute"

/-! Clips. -/

def clipEntry (clip : XmlElement × Nat) : String × XmlElement :=
  (((clip.1.attributeValue "reference").or clip.1.id).getD ("@" ++ toString clip.2), clip.1)

def clipIndex (clips : List XmlElement) : List (String × XmlElement) :=
  (clips.zipIdx.map clipEntry).foldl (fun m e => insert e.1 e.2 m) []

def attributeRow (tag : ChangeTag) (target : String) (before after : XmlElement) (name : String)
    (format : String → String) : List ChangeRow :=
  let before := before.attributeValue name
  let after := after.attributeValue name
  if before = after then []
  else [⟨tag, .modify, target, before.map format, after.map format⟩]

structure ClipCounts where
  added : Nat
  removed : Nat
  modified : Nat
  deriving DecidableEq

section Texts
variable (fmtPosBeats : Nat × Nat → Float → String) (fmtF64 : Float → String)
variable (timeSig : Nat × Nat)

/-- The rows of a clip that both versions have. -/
def changedClipRows (previous clip : XmlElement) : List ChangeRow :=
  let name := clipName clip
  (if clipName previous = name then []
    else [⟨.renamed, .modify, name, some (clipName previous), some name⟩]) ++
  attributeRow .moved name previous clip "time"
    (fun value => ((parseFloat value).map (fmtPosBeats timeSig)).getD value) ++
  attributeRow .length name previous clip "duration" (fun value => value ++ " beats") ++
  if contentsEqualIgnoringGeneratedIds previous.children clip.children then []
  else [⟨.content, .modify, name, none, some "notes, audio, or automation changed"⟩]

def addedClipRow (clip : XmlElement) : ChangeRow :=
  ⟨.added, .add, clipName clip, none,
    ((clip.attributeValue "time").bind parseFloat).map (fmtPosBeats timeSig)⟩

def removedClipRow (clip : XmlElement) : ChangeRow := ⟨.removed, .remove, clipName clip, none, none⟩

/-- The rows of one clip of the new version. -/
def clipEntryRows (before : List (String × XmlElement)) (e : String × XmlElement) : List ChangeRow :=
  match get? before e.1 with
  | none => [addedClipRow fmtPosBeats timeSig e.2]
  | some previous =>
    if elementsEqualIgnoringGeneratedIds previous e.2 then []
    else changedClipRows fmtPosBeats timeSig previous e.2

def clipRows (before after : List (String × XmlElement)) : ClipCounts × List ChangeRow :=
  (⟨after.countP fun e => (get? before e.1).isNone,
    before.countP fun e => (get? after e.1).isNone,
    after.countP fun e =>
      (get? before e.1).any fun previous => !elementsEqualIgnoringGeneratedIds previous e.2⟩,
    after.flatMap (clipEntryRows fmtPosBeats timeSig before) ++
      (before.filter fun e => (get? after e.1).isNone).map fun e => removedClipRow e.2)

/-! Cards. -/

def maxRowsPerTrack : Nat := 24

def renamedRow (before after : XmlElement) : List ChangeRow :=
  if trackName before = trackName after then []
  else [⟨.renamed, .modify, trackName after, some (trackName before), some (trackName after)⟩]

def modifiedTrack (before after : TrackView) : Option ChannelDiff :=
  let clips := clipRows fmtPosBeats timeSig (clipIndex before.clips) (clipIndex after.clips)
  let rows := renamedRow before.element after.element ++ mixRows before.element after.element ++
    deviceRows (devices before.element) (devices after.element) ++ clips.2
  if rows = [] ∧ clips.1 = ⟨0, 0, 0⟩ then none
  else some ⟨trackName after.element, channelKind after.element, .modify, clips.1.added,
    clips.1.removed, clips.1.modified, rows.take maxRowsPerTrack⟩

def addedTrack (track : TrackView) : ChannelDiff :=
  ⟨trackName track.element, channelKind track.element, .add, track.clips.length, 0, 0, []⟩

def removedTrack (track : TrackView) : ChannelDiff :=
  ⟨trackName track.element, channelKind track.element, .remove, 0, track.clips.length, 0, []⟩

def highConfidenceTrackMatch (before after : XmlElement) : Bool :=
  if trackKind before ≠ trackKind after then false
  else if trackKind before = .master then true
  else if trackName before ≠ "Untitled track" ∧ trackName before = trackName after then true
  else deviceIdentity before ≠ [] && deviceIdentity before = deviceIdentity after

/-- The pairs so far, by the id of the new track, and the old tracks in them. -/
structure Matches where
  pairs : List (String × String) := []
  matchedBefore : List String := []

def Matches.add (m : Matches) (afterId beforeId : String) : Matches :=
  ⟨insert afterId beforeId m.pairs, insertKey beforeId m.matchedBefore⟩

/-- A new track with a single old one that is surely it. -/
def matchSurviving (before : List (String × TrackView)) (m : Matches) (e : String × TrackView) :
    Matches :=
  match before.filter fun old =>
      old.1 ∉ m.matchedBefore ∧ highConfidenceTrackMatch old.2.element e.2.element with
  | [old] => m.add e.1 old.1
  | _ => m

/-- A new track with the id of an old one. -/
def matchUnchangedId (before : List (String × TrackView)) (m : Matches) (e : String × TrackView) :
    Matches :=
  if (get? m.pairs e.1).isSome then m
  else
    match get? before e.1 with
    | none => m
    | some old =>
      if e.1 ∉ m.matchedBefore ∧ trackKind old.element = trackKind e.2.element then m.add e.1 e.1
      else m

def matchTracks (before after : List (String × TrackView)) : Matches :=
  after.foldl (matchUnchangedId before) (after.foldl (matchSurviving before) {})

/-- The card of a new track, if there is something to say. -/
def afterCard (m : Matches) (before : List (String × TrackView)) (e : String × TrackView) :
    Option ChannelDiff :=
  match (get? m.pairs e.1).bind (get? before) with
  | some previous => modifiedTrack fmtPosBeats timeSig previous e.2
  | none => some (addedTrack e.2)

def trackCards (before after : List (String × TrackView)) : List ChannelDiff :=
  let m := matchTracks before after
  after.filterMap (afterCard fmtPosBeats timeSig m before) ++
    (before.filter fun e => e.1 ∉ m.matchedBefore).map fun e => removedTrack e.2

def trackDiffs (before after : XmlElement) : List ChannelDiff :=
  trackCards fmtPosBeats (max timeSig.1 1, max timeSig.2 1) (tracks before) (tracks after)

/-! Plugins. -/

def instances (count : Nat) : String :=
  if count = 1 then "1 instance" else toString count ++ " instances"

def pluginIndex (plugins : List PluginRef) : List (String × PluginRef) :=
  (plugins.map fun plugin => (plugin.id.display, plugin)).foldl (fun m e => insert e.1 e.2 m) []

def pluginRows (before after : List (String × PluginRef)) : List ChangeRow :=
  (after.filterMap fun e =>
    match get? before e.1 with
    | none => some ⟨.fxAdded, .add, e.2.name, none, some (instances e.2.instances)⟩
    | some previous =>
      if previous.instances = e.2.instances then none
      else some ⟨.instrumentChanged, .modify, e.2.name, some (instances previous.instances),
        some (instances e.2.instances)⟩) ++
  (before.filter fun e => (get? after e.1).isNone).map fun e =>
    ⟨.fxRemoved, .remove, e.2.name, some (instances e.2.instances), none⟩

def pluginDiff (before after : List PluginRef) : Option ChannelDiff :=
  let rows := pluginRows (pluginIndex before) (pluginIndex after)
  if rows = [] then none else some ⟨"Plugins", .plugin, .modify, 0, 0, 0, rows⟩

/-! The comparison. -/

/-- A change that says which field of the metadata it is about. -/
def isCredit (change : String) : Bool :=
  ["Title", "Artist", "Producer", "Genre"].any fun label => change.startsWith label

def structuredDiff (ancestor current : Value) : Option ProjectDiff := do
  let before ← snapshotParts ancestor
  let after ← snapshotParts current
  let beforeMeta := extractParts before.project.root (before.metadata.map XmlDocument.root)
  let afterMeta := extractParts after.project.root (after.metadata.map XmlDocument.root)
  let timeSig := afterMeta.timeSignature.getD (4, 4)
  let changes := projectChanges fmtF64 beforeMeta afterMeta ++
    resourceChanges (resourceIndex ancestor) (resourceIndex current) ++
    if before.project.root = after.project.root then [] else ["DAWproject project XML changed"]
  return {
    projectChanges := changes ++
      if before.metadata.map XmlDocument.root ≠ after.metadata.map XmlDocument.root ∧
          ¬ changes.any isCredit then ["DAWproject metadata changed"]
      else []
    timeSig
    channels := trackDiffs fmtPosBeats timeSig before.project.root after.project.root ++
      (pluginDiff beforeMeta.plugins afterMeta.plugins).toList }

end Texts

/-! A version compared with itself. -/

mutual
theorem elementsEqual_refl (e : XmlElement) : elementsEqualIgnoringGeneratedIds e e = true := by
  cases e with
  | mk tag id attributes children =>
    rw [elementsEqualIgnoringGeneratedIds, contentsEqual_refl children]
    simp
theorem contentsEqual_refl (contents : List XmlContent) :
    contentsEqualIgnoringGeneratedIds contents contents = true := by
  cases contents with
  | nil => rfl
  | cons content rest =>
    have hrest := contentsEqual_refl rest
    cases content with
    | element e =>
      rw [contentsEqualIgnoringGeneratedIds, elementsEqual_refl e, hrest]
      rfl
    | text t => simp [contentsEqualIgnoringGeneratedIds, hrest]
    | cdata t => simp [contentsEqualIgnoringGeneratedIds, hrest]
    | comment t => simp [contentsEqualIgnoringGeneratedIds, hrest]
end

section Self
variable {V : Type} {m : List (String × V)}

theorem get?_self (h : Sorted m) {e : String × V} (he : e ∈ m) : get? m e.1 = some e.2 :=
  get?_of_mem h he

theorem missing_self (h : Sorted m) : (m.filter fun e => (get? m e.1).isNone) = [] := by
  rw [List.filter_eq_nil_iff]
  intro e he
  simp [get?_self h he]

/-- Nothing is reported of entries that are all known as they are. -/
theorem filterMap_self {A : Type} {f : String × V → Option A} (h : ∀ e ∈ m, f e = none) :
    m.filterMap f = [] :=
  List.filterMap_eq_nil_iff.mpr h

end Self

theorem deviceRows_self {m : List (String × XmlElement)} (h : Sorted m) : deviceRows m m = [] := by
  rw [deviceRows, missing_self h, List.map_nil, List.append_nil]
  refine filterMap_self fun e he => ?_
  simp only [get?_self h he, elementsEqual_refl, if_true]

theorem pluginRows_self {m : List (String × PluginRef)} (h : Sorted m) : pluginRows m m = [] := by
  rw [pluginRows, missing_self h, List.map_nil, List.append_nil]
  refine filterMap_self fun e he => ?_
  simp only [get?_self h he, if_true]

theorem pluginDiff_self (plugins : List PluginRef) : pluginDiff plugins plugins = none :=
  if_pos (pluginRows_self (sorted_foldl_insert _ List.Pairwise.nil))

theorem mixRows_self (track : XmlElement) : mixRows track track = [] := by
  simp [mixRows, mixRow]

theorem tempoChanges_self (fmtF64 : Float → String) (tempo : Option Float) :
    tempoChanges fmtF64 tempo tempo = [] := by
  cases tempo with
  | none => rfl
  | some a =>
    refine if_neg ?_
    rcases sub_self_eq a with h | h <;> rw [h] <;> decide +kernel

theorem changeTexts_self {A : Type} [DecidableEq A] (label : String) (text : A → String)
    (value : Option A) : changeTexts label text value value = [] :=
  if_pos rfl

theorem projectChanges_self (fmtF64 : Float → String) (metadata : DawprojectMetadata) :
    projectChanges fmtF64 metadata metadata = [] := by
  simp [projectChanges, changeTexts_self, tempoChanges_self, savedWith, countChange]

/-- No line is missing where the resources differ. -/
theorem resourceChanges_eq_nil_iff {before after : List (String × String)} (hb : Sorted before)
    (ha : Sorted after) : resourceChanges before after = [] ↔ before = after := by
  constructor
  · intro h
    obtain ⟨hafter, hbefore⟩ := List.append_eq_nil_iff.mp h
    rw [List.filterMap_eq_nil_iff] at hafter
    rw [List.map_eq_nil_iff, List.filter_eq_nil_iff] at hbefore
    refine ext hb ha fun path => ?_
    cases hget : get? after path with
    | some value =>
      have hline := hafter (path, value) (mem_of_get? hget)
      cases hold : get? before path with
      | none => simp [hold] at hline
      | some old =>
        by_cases heq : old = value
        · rw [heq]
        · simp [hold, heq] at hline
    | none =>
      cases hold : get? before path with
      | none => rfl
      | some old =>
        have hkept := hbefore (path, old) (mem_of_get? hold)
        simp [hget] at hkept
  · rintro rfl
    rw [resourceChanges, missing_self hb, List.map_nil, List.append_nil]
    refine filterMap_self fun e he => ?_
    simp only [get?_self hb he, if_true]

section Texts
variable (fmtPosBeats : Nat × Nat → Float → String) (timeSig : Nat × Nat)

theorem clipRows_self {m : List (String × XmlElement)} (h : Sorted m) :
    clipRows fmtPosBeats timeSig m m = (⟨0, 0, 0⟩, []) := by
  have hrows : m.flatMap (clipEntryRows fmtPosBeats timeSig m) = [] := by
    rw [List.flatMap_eq_nil_iff]
    intro e he
    simp only [clipEntryRows, get?_self h he, elementsEqual_refl, if_true]
  have hadded : m.countP (fun e => (get? m e.1).isNone) = 0 := by
    rw [List.countP_eq_length_filter, missing_self h, List.length_nil]
  have hmodified : m.countP (fun e => (get? m e.1).any fun previous =>
      !elementsEqualIgnoringGeneratedIds previous e.2) = 0 := by
    rw [List.countP_eq_zero]
    intro e he
    simp [get?_self h he, elementsEqual_refl]
  rw [clipRows, hrows, hadded, hmodified, missing_self h]
  rfl

theorem modifiedTrack_self (track : TrackView) :
    modifiedTrack fmtPosBeats timeSig track track = none := by
  have hclips := clipRows_self fmtPosBeats timeSig (m := clipIndex track.clips)
    (sorted_foldl_insert _ List.Pairwise.nil)
  have hdevices := deviceRows_self (m := devices track.element)
    (sorted_foldl_insert _ List.Pairwise.nil)
  rw [modifiedTrack, hclips, hdevices, mixRows_self, renamedRow, if_pos rfl]
  rfl

end Texts

/-- What surely is some track is surely itself. -/
theorem highConfidence_self {before after : XmlElement}
    (h : highConfidenceTrackMatch before after = true) : highConfidenceTrackMatch after after = true := by
  unfold highConfidenceTrackMatch at h ⊢
  rw [if_neg (not_not.mpr rfl)]
  split at h
  · cases h
  rename_i hkind
  split at h
  · rename_i hmaster
    rw [if_pos ((not_not.mp hkind).symm.trans hmaster)]
  split
  · rfl
  split at h
  · rename_i hname
    rw [if_pos ⟨hname.2 ▸ hname.1, rfl⟩]
  · split
    · rfl
    · simp only [Bool.and_eq_true, decide_eq_true_eq] at h ⊢
      exact ⟨h.2 ▸ h.1, trivial⟩

/-- Every pair so far is a track with itself. -/
structure Identical (m : Matches) : Prop where
  pairs : ∀ afterId beforeId, get? m.pairs afterId = some beforeId → beforeId = afterId
  matched : ∀ id, id ∈ m.matchedBefore ↔ (get? m.pairs id).isSome = true

theorem Identical.start : Identical {} where
  pairs _ _ h := by cases h
  matched _ := by simp [get?]

theorem Identical.add {m : Matches} (h : Identical m) (id : String) : Identical (m.add id id) where
  pairs afterId beforeId hget := by
    rw [Matches.add, get?_insert] at hget
    split at hget
    · rename_i hid
      rw [hid, Option.some.inj hget]
    · exact h.pairs afterId beforeId hget
  matched id' := by
    rw [Matches.add, mem_insertKey, get?_insert, h.matched]
    split
    · rename_i hid
      simp [hid]
    · rename_i hid
      simp [hid]

section SelfMatch
variable {ts : List (String × TrackView)} {m : Matches} {e : String × TrackView}

theorem matchSurviving_self (he : e ∈ ts) (h : Identical m)
    (hfree : get? m.pairs e.1 = none) :
    matchSurviving ts m e = m ∨ matchSurviving ts m e = m.add e.1 e.1 := by
  unfold matchSurviving
  split
  · rename_i old hcandidates
    have hold : old ∈ ts.filter fun old => old.1 ∉ m.matchedBefore ∧
        highConfidenceTrackMatch old.2.element e.2.element := by
      rw [hcandidates]
      exact List.mem_singleton_self old
    have hsure := (decide_eq_true_iff.mp (List.mem_filter.mp hold).2).2
    have hunmatched : e.1 ∉ m.matchedBefore := by
      rw [h.matched, hfree]
      exact Bool.false_ne_true
    have hself : e ∈ ts.filter fun old => old.1 ∉ m.matchedBefore ∧
        highConfidenceTrackMatch old.2.element e.2.element :=
      List.mem_filter.mpr ⟨he, decide_eq_true ⟨hunmatched, highConfidence_self hsure⟩⟩
    rw [hcandidates] at hself
    obtain rfl := List.mem_singleton.mp hself
    exact .inr rfl
  · exact .inl rfl

/-- Of tracks that survived, none is taken for another. -/
theorem identical_surviving {rest : List (String × TrackView)}
    (hrest : ∀ e ∈ rest, e ∈ ts) (hkeys : (rest.map Prod.fst).Nodup) (h : Identical m)
    (hfree : ∀ e ∈ rest, get? m.pairs e.1 = none) :
    Identical (rest.foldl (matchSurviving ts) m) := by
  induction rest generalizing m with
  | nil => exact h
  | cons e rest ih =>
    obtain ⟨hkey, hkeys⟩ := List.nodup_cons.mp hkeys
    obtain ⟨he, hrest⟩ := List.forall_mem_cons.mp hrest
    obtain ⟨hfree, hfrees⟩ := List.forall_mem_cons.mp hfree
    rw [List.foldl_cons]
    rcases matchSurviving_self he h hfree with hstep | hstep
    · rw [hstep]
      exact ih hrest hkeys h hfrees
    · rw [hstep]
      refine ih hrest hkeys (h.add e.1) fun other hother => ?_
      rw [Matches.add, get?_insert, if_neg]
      · exact hfrees other hother
      · intro heq
        exact hkey (heq ▸ List.mem_map_of_mem hother)

theorem matchUnchangedId_self (hs : Sorted ts) (he : e ∈ ts) (h : Identical m) :
    Identical (matchUnchangedId ts m e) ∧ get? (matchUnchangedId ts m e).pairs e.1 = some e.1 ∧
      ∀ id b, get? m.pairs id = some b → get? (matchUnchangedId ts m e).pairs id = some b := by
  unfold matchUnchangedId
  split
  · rename_i hsome
    obtain ⟨b, hb⟩ := Option.isSome_iff_exists.mp hsome
    obtain rfl := h.pairs _ _ hb
    exact ⟨h, hb, fun _ _ hget => hget⟩
  · rename_i hnone
    have hunmatched : e.1 ∉ m.matchedBefore := by
      rw [h.matched]
      exact hnone
    rw [get?_self hs he]
    dsimp only
    rw [if_pos ⟨hunmatched, rfl⟩]
    refine ⟨h.add e.1, by rw [Matches.add, get?_insert, if_pos rfl], fun id b hget => ?_⟩
    rw [Matches.add, get?_insert, if_neg]
    · exact hget
    · rintro rfl
      rw [hget] at hnone
      exact hnone rfl

theorem identical_unchangedId (hs : Sorted ts) {rest : List (String × TrackView)}
    (hrest : ∀ e ∈ rest, e ∈ ts) (h : Identical m) :
    Identical (rest.foldl (matchUnchangedId ts) m) ∧
      (∀ e ∈ rest, get? (rest.foldl (matchUnchangedId ts) m).pairs e.1 = some e.1) ∧
      ∀ id b, get? m.pairs id = some b →
        get? (rest.foldl (matchUnchangedId ts) m).pairs id = some b := by
  induction rest generalizing m with
  | nil => exact ⟨h, fun _ he => absurd he List.not_mem_nil, fun _ _ hget => hget⟩
  | cons e rest ih =>
    obtain ⟨he, hrest⟩ := List.forall_mem_cons.mp hrest
    obtain ⟨hstep, hown, hkept⟩ := matchUnchangedId_self hs he h
    obtain ⟨hidentical, hall, hkept'⟩ := ih hrest hstep
    exact ⟨hidentical, List.forall_mem_cons.mpr ⟨hkept' _ _ hown, hall⟩,
      fun id b hget => hkept' id b (hkept id b hget)⟩

/-- Compared with itself, every track is paired with itself. -/
theorem matchTracks_self (hs : Sorted ts) : Identical (matchTracks ts ts) ∧
    ∀ e ∈ ts, get? (matchTracks ts ts).pairs e.1 = some e.1 := by
  have hsurviving : Identical (ts.foldl (matchSurviving ts) {}) :=
    identical_surviving (fun _ he => he) (List.pairwise_map.mpr (hs.imp ne_of_lt)) Identical.start
      fun _ _ => rfl
  obtain ⟨hidentical, hall, -⟩ := identical_unchangedId hs (fun _ he => he) hsurviving
  exact ⟨hidentical, hall⟩

theorem trackCards_self (fmtPosBeats : Nat × Nat → Float → String) (timeSig : Nat × Nat)
    (hs : Sorted ts) : trackCards fmtPosBeats timeSig ts ts = [] := by
  obtain ⟨hidentical, hall⟩ := matchTracks_self hs
  rw [trackCards]
  refine List.append_eq_nil_iff.mpr ⟨filterMap_self fun e he => ?_, ?_⟩
  · rw [afterCard, hall e he, Option.bind_some, get?_self hs he]
    exact modifiedTrack_self fmtPosBeats timeSig e.2
  · rw [List.map_eq_nil_iff, List.filter_eq_nil_iff]
    intro e he
    rw [decide_eq_true_eq, not_not, hidentical.matched, hall e he]
    rfl

end SelfMatch

theorem sorted_tracks (root : XmlElement) : Sorted (tracks root) := by
  unfold tracks
  split
  · exact List.Pairwise.nil
  · exact sorted_foldl_insert _ List.Pairwise.nil

/-! When nothing is shown. -/

section Empty
variable (fmtPosBeats : Nat × Nat → Float → String) (fmtF64 : Float → String)

/-- An empty comparison is one of equal versions: whatever differs in the project, its metadata or
its resources is shown by some line, and nothing is shown of what does not differ. -/
theorem structuredDiff_isEmpty_iff (ancestor current : Value) :
    (∃ diff, structuredDiff fmtPosBeats fmtF64 ancestor current = some diff ∧ diff.isEmpty = true) ↔
      ∃ parts, snapshotParts ancestor = some parts ∧ snapshotParts current = some parts ∧
        resourceIndex ancestor = resourceIndex current := by
  have hresources : resourceChanges (resourceIndex ancestor) (resourceIndex current) = [] ↔
      resourceIndex ancestor = resourceIndex current :=
    resourceChanges_eq_nil_iff (sorted_foldl_insert _ List.Pairwise.nil)
      (sorted_foldl_insert _ List.Pairwise.nil)
  constructor
  · rintro ⟨diff, hdiff, hempty⟩
    obtain ⟨⟨⟨root⟩, metadata⟩, hbefore, hdiff⟩ := Option.bind_eq_some_iff.mp hdiff
    obtain ⟨⟨⟨root'⟩, metadata'⟩, hafter, hdiff⟩ := Option.bind_eq_some_iff.mp hdiff
    obtain rfl := Option.some.inj hdiff
    rw [ProjectDiff.isEmpty, Bool.and_eq_true, List.isEmpty_iff, List.isEmpty_iff] at hempty
    obtain ⟨hchanges, -⟩ := hempty
    simp only [List.append_eq_nil_iff] at hchanges
    obtain ⟨⟨⟨hproject, hresource⟩, hroot⟩, hmetadata⟩ := hchanges
    have hroots : root = root' := by
      by_contra hne
      rw [if_neg hne] at hroot
      cases hroot
    subst hroots
    have hdocuments : metadata.map XmlDocument.root = metadata'.map XmlDocument.root := by
      by_contra hne
      rw [if_pos ⟨hne, by rw [hproject, hresource, if_pos rfl]; exact Bool.false_ne_true⟩] at hmetadata
      cases hmetadata
    have hinjective : Function.Injective XmlDocument.root := by
      rintro ⟨a⟩ ⟨b⟩ rfl
      rfl
    obtain rfl := Option.map_injective hinjective hdocuments
    exact ⟨_, hbefore, hafter, hresources.mp hresource⟩
  · rintro ⟨parts, hbefore, hafter, hsame⟩
    refine ⟨_, Option.bind_eq_some_iff.mpr ⟨parts, hbefore, Option.bind_eq_some_iff.mpr
      ⟨parts, hafter, rfl⟩⟩, ?_⟩
    have hcards : trackDiffs fmtPosBeats ((extractParts parts.project.root
        (parts.metadata.map XmlDocument.root)).timeSignature.getD (4, 4)) parts.project.root
          parts.project.root = [] :=
      trackCards_self fmtPosBeats _ (sorted_tracks parts.project.root)
    rw [ProjectDiff.isEmpty]
    simp only [projectChanges_self, hresources.mpr hsame, if_true, hcards, pluginDiff_self,
      ne_eq, not_true_eq_false, false_and, if_false, List.append_nil, Option.toList_none,
      List.isEmpty_nil, Bool.and_true]

end Empty

end Dawproject

end AuruPm
