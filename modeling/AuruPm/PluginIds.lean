import AuruPm.ConflictPath
import AuruPm.FileRefs

/-!
# Keys of plugins

A registry keys its entries by the text of a plugin's identity: a scheme, a colon and what the
identity holds, with colons between the parts of a DAWproject device. The text is split at its
first colons again. So an identity is read back unless a part that a colon ends has one in it, or
a part that may not be empty is.
-/

namespace AuruPm

set_option autoImplicit false

inductive PluginFormat where
  | vst2
  | vst3
  | audioUnit
  | clap
  /-- Built into the DAW. -/
  | native
  /-- A hosted plugin whose binary could not be identified. -/
  | unknown
  deriving DecidableEq, Ord

def PluginFormat.registryKey : PluginFormat → String
  | .vst2 => "vst2"
  | .vst3 => "vst3"
  | .audioUnit => "au"
  | .clap => "clap"
  | .native => "native"
  | .unknown => "unknown"

def PluginFormat.fromRegistryKey (value : String) : Option PluginFormat :=
  if value = "vst2" then some .vst2
  else if value = "vst3" then some .vst3
  else if value = "au" then some .audioUnit
  else if value = "clap" then some .clap
  else if value = "native" then some .native
  else if value = "unknown" then some .unknown
  else none

theorem PluginFormat.fromRegistryKey_registryKey (format : PluginFormat) :
    fromRegistryKey format.registryKey = some format := by
  cases format <;> decide

/-- A VST3 class id. -/
structure Tuid where
  first : UInt32
  second : UInt32
  third : UInt32
  fourth : UInt32
  deriving DecidableEq, Ord

/-- Stable identity for a plugin, independent of its display name or install path. -/
inductive PluginId where
  | vst2 (uniqueId : UInt32)
  | vst3 (tuid : Tuid)
  | audioUnit (name : String)
  | clap (pluginId : String)
  | native (device : String)
  | vst2ByFile (fileName : String)
  | flNative (device : String)
  | dawprojectBuiltin (application deviceId : String)
  | dawproject (format : PluginFormat) (deviceId : String)
  deriving DecidableEq, Ord

namespace PluginId

def tuidText (tuid : Tuid) : String :=
  toString tuid.first.toNat ++ "-" ++ toString tuid.second.toNat ++ "-" ++
    toString tuid.third.toNat ++ "-" ++ toString tuid.fourth.toNat

/-- `Display`: the registry lookup key. -/
def display : PluginId → String
  | .vst2 uniqueId => "vst2:" ++ toString uniqueId.toNat
  | .vst3 tuid => "vst3:" ++ tuidText tuid
  | .audioUnit name => "au:" ++ name
  | .clap pluginId => "clap:" ++ pluginId
  | .native device => "live:" ++ device
  | .vst2ByFile fileName => "vst2file:" ++ fileName
  | .flNative device => "fl:" ++ device
  | .dawprojectBuiltin application deviceId =>
    "dawproject-builtin:" ++ application ++ ":" ++ deviceId
  | .dawproject format deviceId => "dawproject:" ++ format.registryKey ++ ":" ++ deviceId

structure ParsePluginIdError where
  value : String
  deriving DecidableEq

def ParsePluginIdError.text (e : ParsePluginIdError) : String :=
  "'" ++ e.value ++ "' is not a plugin identity"

/-- `split_once` -/
def splitOnce (c : Char) (text : String) : Option (String × String) :=
  match text.toList.dropWhile (· ≠ c) with
  | [] => none
  | _ :: rest => some (String.ofList (text.toList.takeWhile (· ≠ c)), String.ofList rest)

def parseU32 (text : String) : Option UInt32 := (Ableton.parseU32 text).map UInt32.ofNat

def parseTuid (text : String) : Option Tuid :=
  match (text.toList.splitOn '-').map String.ofList with
  | [first, second, third, fourth] => do
    let first ← parseU32 first
    let second ← parseU32 second
    let third ← parseU32 third
    let fourth ← parseU32 fourth
    return ⟨first, second, third, fourth⟩
  | _ => none

def nonEmpty (text : String) : Option String := if text = "" then none else some text

def readBuiltin (rest : String) : Option PluginId :=
  (splitOnce ':' rest).bind fun (application, deviceId) =>
    if application = "" ∨ deviceId = "" then none
    else some (.dawprojectBuiltin application deviceId)

def readDawproject (rest : String) : Option PluginId :=
  (splitOnce ':' rest).bind fun (format, deviceId) =>
    if format = "" ∨ deviceId = "" then none
    else (PluginFormat.fromRegistryKey format).map fun format => .dawproject format deviceId

def readKey (scheme rest : String) : Option PluginId :=
  if scheme = "vst2" then (parseU32 rest).map .vst2
  else if scheme = "vst3" then (parseTuid rest).map .vst3
  else if scheme = "au" then (nonEmpty rest).map .audioUnit
  else if scheme = "clap" then (nonEmpty rest).map .clap
  else if scheme = "live" then (nonEmpty rest).map .native
  else if scheme = "vst2file" then (nonEmpty rest).map fun rest => .vst2ByFile (asciiLowercase rest)
  else if scheme = "fl" then (nonEmpty rest).map .flNative
  else if scheme = "dawproject-builtin" then readBuiltin rest
  else if scheme = "dawproject" then readDawproject rest
  else none

def fromStr (value : String) : Except ParsePluginIdError PluginId :=
  match (splitOnce ':' value).bind fun parts => readKey parts.1 parts.2 with
  | some id => .ok id
  | none => .error ⟨value⟩

/-! Parts. -/

theorem splitOnce_append {c : Char} {head : String} (h : c ∉ head.toList) (rest : String) :
    splitOnce c (head ++ (String.singleton c ++ rest)) = some (head, rest) := by
  have hlist : (head ++ (String.singleton c ++ rest)).toList = head.toList ++ c :: rest.toList := by
    simp
  have hkept : ∀ d ∈ head.toList, decide (d ≠ c) = true := by
    intro d hd
    rw [decide_eq_true_iff]
    rintro rfl
    exact h hd
  rw [splitOnce, hlist, List.dropWhile_append_of_pos hkept, List.takeWhile_append_of_pos hkept]
  simp

theorem splitOnce_eq_some {c : Char} {text head rest : String}
    (h : splitOnce c text = some (head, rest)) :
    text = head ++ (String.singleton c ++ rest) ∧ c ∉ head.toList := by
  unfold splitOnce at h
  split at h
  · cases h
  · rename_i d tail hdrop
    simp only [Option.some.injEq, Prod.mk.injEq] at h
    obtain ⟨rfl, rfl⟩ := h
    have hd : d = c := by
      have hhead := List.head?_dropWhile_not (fun x => decide (x ≠ c)) text.toList
      rw [hdrop] at hhead
      simpa using hhead
    subst hd
    constructor
    · rw [← String.toList_inj]
      have hsplit := List.takeWhile_append_dropWhile (p := fun x => decide (x ≠ d)) (l := text.toList)
      rw [hdrop] at hsplit
      simp only [String.toList_append, String.toList_ofList, String.toList_singleton,
        List.singleton_append]
      exact hsplit.symm
    · intro hmem
      rw [String.toList_ofList] at hmem
      have hkept := List.mem_takeWhile_imp hmem
      simp at hkept

theorem parseU32_toString (n : UInt32) : parseU32 (toString n.toNat) = some n := by
  have hlt := n.toNat_lt
  rw [parseU32, Ableton.parseU32, parseUsize_toString, if_pos (by omega), Option.filter_some,
    if_pos (by simpa using hlt), Option.map_some, UInt32.ofNat_toNat]

theorem parseTuid_tuidText (tuid : Tuid) : parseTuid (tuidText tuid) = some tuid := by
  have hdash : ∀ n : Nat, '-' ∉ (toString n).toList := by
    intro n hmem
    have hdigit := List.all_eq_true.mp (digits_toString n).2.1 '-' hmem
    revert hdigit
    decide
  have htext : (tuidText tuid).toList = ['-'].intercalate [(toString tuid.first.toNat).toList,
      (toString tuid.second.toNat).toList, (toString tuid.third.toNat).toList,
      (toString tuid.fourth.toNat).toList] := by
    simp [tuidText, List.intercalate, List.intersperse]
  have hfields : ∀ field ∈ [(toString tuid.first.toNat).toList, (toString tuid.second.toNat).toList,
      (toString tuid.third.toNat).toList, (toString tuid.fourth.toNat).toList], '-' ∉ field := by
    intro field hfield
    simp only [List.mem_cons, List.not_mem_nil, or_false] at hfield
    rcases hfield with rfl | rfl | rfl | rfl
    all_goals exact hdash _
  rw [parseTuid, htext, List.splitOn_intercalate '-' hfields (by simp)]
  simp only [List.map_cons, List.map_nil, String.ofList_toList, parseU32_toString]
  rfl

theorem nonEmpty_eq_some_iff {text found : String} :
    nonEmpty text = some found ↔ found = text ∧ text ≠ "" := by
  unfold nonEmpty
  split
  · rename_i h
    simp [h]
  · rename_i h
    simp [h, eq_comm]

/-! The whole key. -/

/-- The schemes have no colon, so the first colon ends them. -/
theorem fromStr_scheme {value : String} (scheme rest : String)
    (hvalue : value.toList = scheme.toList ++ ':' :: rest.toList) (h : ':' ∉ scheme.toList)
    (id : PluginId) : fromStr value = .ok id ↔ readKey scheme rest = some id := by
  have hsplit : value = scheme ++ (String.singleton ':' ++ rest) := by
    rw [← String.toList_inj, hvalue]
    simp
  rw [fromStr, hsplit, splitOnce_append h, Option.bind_some]
  cases readKey scheme rest <;> simp

/-- What the text of an identity needs for being read back. -/
def Readable : PluginId → Prop
  | .vst2 _ => True
  | .vst3 _ => True
  | .audioUnit name => name ≠ ""
  | .clap pluginId => pluginId ≠ ""
  | .native device => device ≠ ""
  | .vst2ByFile fileName => fileName ≠ "" ∧ asciiLowercase fileName = fileName
  | .flNative device => device ≠ ""
  | .dawprojectBuiltin application deviceId =>
    ':' ∉ application.toList ∧ application ≠ "" ∧ deviceId ≠ ""
  | .dawproject _ deviceId => deviceId ≠ ""

/-- The two parts of a DAWproject device are split at the first colon. -/
theorem readBuiltin_iff (application deviceId : String) :
    readBuiltin (application ++ (String.singleton ':' ++ deviceId)) =
        some (.dawprojectBuiltin application deviceId) ↔
      ':' ∉ application.toList ∧ application ≠ "" ∧ deviceId ≠ "" := by
  constructor
  · intro h
    obtain ⟨⟨head, rest⟩, hsplit, hread⟩ := Option.bind_eq_some_iff.mp h
    simp only at hread
    split at hread
    · cases hread
    · rename_i hparts
      cases hread
      exact ⟨(splitOnce_eq_some hsplit).2, not_or.mp hparts⟩
  · intro ⟨hcolon, happlication, hdevice⟩
    rw [readBuiltin, splitOnce_append hcolon, Option.bind_some]
    exact if_neg (not_or.mpr ⟨happlication, hdevice⟩)

theorem readDawproject_iff (format : PluginFormat) (deviceId : String) :
    readDawproject (format.registryKey ++ (String.singleton ':' ++ deviceId)) =
        some (.dawproject format deviceId) ↔ deviceId ≠ "" := by
  have hcolon : ':' ∉ format.registryKey.toList := by cases format <;> decide
  have hformat : format.registryKey ≠ "" := by cases format <;> decide
  rw [readDawproject, splitOnce_append hcolon, Option.bind_some]
  simp [hformat, PluginFormat.fromRegistryKey_registryKey]

theorem fromStr_display_iff (id : PluginId) : fromStr id.display = .ok id ↔ id.Readable := by
  cases id with
  | vst2 uniqueId =>
    have hdisplay : (PluginId.vst2 uniqueId).display = "vst2:" ++ toString uniqueId.toNat := rfl
    rw [hdisplay]
    generalize htext : toString uniqueId.toNat = text
    rw [fromStr_scheme "vst2" text (by simp) (by decide)]
    have hread : readKey "vst2" text = (parseU32 text).map .vst2 := if_pos rfl
    rw [hread, ← htext, parseU32_toString]
    simp [Readable]
  | vst3 tuid =>
    have hdisplay : (PluginId.vst3 tuid).display = "vst3:" ++ tuidText tuid := rfl
    rw [hdisplay]
    generalize htext : tuidText tuid = text
    rw [fromStr_scheme "vst3" text (by simp) (by decide)]
    have hread : readKey "vst3" text = (parseTuid text).map .vst3 := by simp [readKey]
    rw [hread, ← htext, parseTuid_tuidText]
    simp [Readable]
  | audioUnit name =>
    have hdisplay : (PluginId.audioUnit name).display = "au:" ++ name := rfl
    rw [hdisplay, fromStr_scheme "au" name (by simp) (by decide)]
    simp [readKey, nonEmpty_eq_some_iff, Readable]
  | clap pluginId =>
    have hdisplay : (PluginId.clap pluginId).display = "clap:" ++ pluginId := rfl
    rw [hdisplay, fromStr_scheme "clap" pluginId (by simp) (by decide)]
    simp [readKey, nonEmpty_eq_some_iff, Readable]
  | native device =>
    have hdisplay : (PluginId.native device).display = "live:" ++ device := rfl
    rw [hdisplay, fromStr_scheme "live" device (by simp) (by decide)]
    simp [readKey, nonEmpty_eq_some_iff, Readable]
  | vst2ByFile fileName =>
    have hdisplay : (PluginId.vst2ByFile fileName).display = "vst2file:" ++ fileName := rfl
    rw [hdisplay, fromStr_scheme "vst2file" fileName (by simp) (by decide)]
    simp [readKey, nonEmpty_eq_some_iff, Readable]
  | flNative device =>
    have hdisplay : (PluginId.flNative device).display = "fl:" ++ device := rfl
    rw [hdisplay, fromStr_scheme "fl" device (by simp) (by decide)]
    simp [readKey, nonEmpty_eq_some_iff, Readable]
  | dawprojectBuiltin application deviceId =>
    have hdisplay : (PluginId.dawprojectBuiltin application deviceId).display =
        "dawproject-builtin:" ++ application ++ ":" ++ deviceId := rfl
    rw [hdisplay, fromStr_scheme "dawproject-builtin"
      (application ++ (String.singleton ':' ++ deviceId)) (by simp) (by decide)]
    simp only [readKey, String.reduceEq, if_false, if_true]
    exact readBuiltin_iff application deviceId
  | dawproject format deviceId =>
    have hdisplay : (PluginId.dawproject format deviceId).display =
        "dawproject:" ++ format.registryKey ++ ":" ++ deviceId := rfl
    rw [hdisplay, fromStr_scheme "dawproject"
      (format.registryKey ++ (String.singleton ':' ++ deviceId)) (by simp) (by decide)]
    simp only [readKey, String.reduceEq, if_false, if_true]
    exact readDawproject_iff format deviceId

end PluginId

end AuruPm
