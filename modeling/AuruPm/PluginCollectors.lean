import AuruPm.FlStream
import AuruPm.HashSpelling
import AuruPm.PluginIds
import AuruPm.SnapshotValue

/-!
# Plugins of a project

What instruments and effects a project loads: devices of a Live Set, devices of a DAWproject, and
instances in the event stream of FL Studio. Each collector counts the instances of an identity.
-/

namespace AuruPm

set_option autoImplicit false

/-- One distinct plugin, with how many times it appears. -/
structure PluginRef where
  name : String
  format : PluginFormat
  id : PluginId
  deviceType : Option UInt32
  path : Option String
  instances : Nat
  deriving DecidableEq

/-- `entry(key).and_modify(instances += 1).or_insert(plugin)` of an ordered map. -/
def recordPlugin {K : Type} [Ord K] (key : K) (plugin : PluginRef) :
    List (K × PluginRef) → List (K × PluginRef)
  | [] => [(key, plugin)]
  | (k, existing) :: rest =>
    match compare key k with
    | .lt => (key, plugin) :: (k, existing) :: rest
    | .eq => (k, { existing with instances := existing.instances + 1 }) :: rest
    | .gt => (k, existing) :: recordPlugin key plugin rest

def recordPlugins (plugins : List PluginRef) : List (PluginId × PluginRef) :=
  plugins.foldl (fun found plugin => recordPlugin plugin.id plugin found) []

/-- By format, then by name. -/
def sortPlugins (plugins : List PluginRef) : List PluginRef :=
  plugins.mergeSort fun left right =>
    ((compare left.format right.format).then (compare left.name right.name)).isLE

/-- Elements under `Devices`. -/
def devicesOf (root : XmlElement) : List XmlElement :=
  (root.descendants.filter fun node => node.tag = "Devices").flatMap XmlElement.childElements

/-! Live. -/

namespace Ableton

def readVst2 (info : XmlElement) : Option PluginRef := do
  let uniqueId ← (info.childValue "UniqueId").bind PluginId.parseU32
  return {
    name := ((info.childValue "PlugName").filter (· ≠ "")).getD "Unknown VST2 plugin"
    format := .vst2
    id := .vst2 uniqueId
    deviceType := none
    path := (info.childValue "Path").filter (· ≠ "")
    instances := 1 }

def readTuid (info : XmlElement) : Option Tuid := do
  let uid ← info.child "Uid"
  let first ← (uid.childValue "Fields.0").bind PluginId.parseU32
  let second ← (uid.childValue "Fields.1").bind PluginId.parseU32
  let third ← (uid.childValue "Fields.2").bind PluginId.parseU32
  let fourth ← (uid.childValue "Fields.3").bind PluginId.parseU32
  return ⟨first, second, third, fourth⟩

def readVst3 (info : XmlElement) : Option PluginRef := do
  let tuid ← readTuid info
  return {
    name := ((info.childValue "Name").filter (· ≠ "")).getD "Unknown VST3 plugin"
    format := .vst3
    id := .vst3 tuid
    deviceType := (info.childValue "DeviceType").bind PluginId.parseU32
    path := (info.childValue "Path").filter (· ≠ "")
    instances := 1 }

def readAudioUnit (info : XmlElement) : Option PluginRef := do
  let name ← ((info.childValue "Name").or (info.childValue "PlugName")).filter (· ≠ "")
  return {
    name := name
    format := .audioUnit
    id := .audioUnit name
    deviceType := (info.childValue "DeviceType").bind PluginId.parseU32
    path := none
    instances := 1 }

def readInfo (node : XmlElement) : Option PluginRef :=
  if node.tag = "VstPluginInfo" then readVst2 node
  else if node.tag = "Vst3PluginInfo" then readVst3 node
  else if node.tag = "AuPluginInfo" then readAudioUnit node
  else none

def readHostedPlugin (device : XmlElement) : Option PluginRef :=
  device.descendants.findSome? readInfo

def readDevice (device : XmlElement) : Option PluginRef :=
  if device.tag = "PluginDevice" ∨ device.tag = "AuPluginDevice" then readHostedPlugin device
  else some {
    name := device.tag
    format := .native
    id := .native device.tag
    deviceType := none
    path := none
    instances := 1 }

def collectPlugins (root : XmlElement) : List PluginRef :=
  sortPlugins ((recordPlugins ((devicesOf root).filterMap readDevice)).map Prod.snd)

end Ableton

/-! DAWproject. -/

namespace Dawproject

def hexDigits (digits : List Nat) : UInt32 :=
  .ofNat (digits.foldl (fun value u => value * 16 + (hexValue u).getD 0) 0)

/-- The UUID text of a class, with or without its hyphens. -/
def parseVst3Id (id : String) : Option Tuid :=
  let compact := CodeUnits.utf8 (id.toList.filter (· ≠ '-'))
  if compact.length ≠ 32 ∨ ¬ compact.all (fun u => (hexValue u).isSome) then none
  else some ⟨hexDigits (compact.take 8), hexDigits ((compact.drop 8).take 8),
    hexDigits ((compact.drop 16).take 8), hexDigits (compact.drop 24)⟩

def builtinTags : List String :=
  ["Device", "BuiltinDevice", "Equalizer", "Compressor", "NoiseGate", "Limiter"]

def applicationOf (root : XmlElement) : String :=
  (((root.child "Application").bind fun e => e.attributeValue "name").filter (· ≠ "")).getD
    "unknown-exporter"

def deviceName (device : XmlElement) : String :=
  (((device.attributeValue "deviceName").or (device.attributeValue "name")).filter (· ≠ "")).getD
    device.tag

def deviceIdOf (device : XmlElement) : String :=
  ((device.attributeValue "deviceID").filter (· ≠ "")).getD (deviceName device)

/-- Format and identity of a device with one of the known tags. -/
def identify (device : XmlElement) (application : String) : Option (PluginFormat × PluginId) :=
  let deviceId := deviceIdOf device
  if device.tag = "Vst2Plugin" then
    some (.vst2, ((PluginId.parseU32 deviceId).map PluginId.vst2).getD (.dawproject .vst2 deviceId))
  else if device.tag = "Vst3Plugin" then
    some (.vst3, ((parseVst3Id deviceId).map PluginId.vst3).getD (.dawproject .vst3 deviceId))
  else if device.tag = "ClapPlugin" then some (.clap, .clap deviceId)
  else if device.tag = "AuPlugin" then some (.audioUnit, .audioUnit deviceId)
  else if device.tag ∈ builtinTags then some (.native, .dawprojectBuiltin application deviceId)
  else none

def deviceType (role : Option String) : Option UInt32 :=
  if role = some "instrument" then some 1
  else if role = some "audioFX" ∨ role = some "noteFX" then some 2
  else none

def readDevice (application : String) (device : XmlElement) : Option PluginRef :=
  (identify device application).map fun (format, id) =>
    { name := deviceName device
      format := format
      id := id
      deviceType := deviceType (device.attributeValue "deviceRole")
      path := none
      instances := 1 }

def collectPlugins (root : XmlElement) : List PluginRef :=
  sortPlugins
    ((recordPlugins ((devicesOf root).filterMap (readDevice (applicationOf root)))).map Prod.snd)

end Dawproject

/-! FL Studio. -/

namespace FlStudio

def eventInternalName : UInt8 := 201

def eventNewPlugin : UInt8 := 212

def eventDisplayName : UInt8 := 203

def eventPluginParams : UInt8 := 213

/-- The internal name of any hosted plugin. -/
def wrapperName : String := "Fruity Wrapper"

def binaryExtensions : List (List Char) :=
  [".dll".toList, ".vst3".toList, ".so".toList, ".component".toList]

def eventText (payload : List UInt8) (utf16 : Bool) : String :=
  if utf16 then decodeUtf16 payload else decodeAscii payload

/-- `str::find` -/
def findText (needle : List Char) : List Char → Option Nat
  | [] => if needle.isPrefixOf [] then some 0 else none
  | c :: rest =>
    if needle.isPrefixOf (c :: rest) then some 0 else (findText needle rest).map (· + 1)

/-- The last drive letter. Without one the path is all of it. -/
def startOfPath (head : List Char) : Nat :=
  ((List.range (head.length - 2)).reverse.find? fun index =>
    match head.drop index with
    | letter :: colon :: slash :: _ => letter.isAlpha && colon = ':' && isAnySlash slash
    | _ => false).getD 0

/-- A plugin path in a run of printable characters, up to the first extension. -/
def pathWithin (run : List Char) : Option String :=
  let lower := run.map Char.toLower
  let ends := binaryExtensions.filterMap fun extension =>
    (findText extension lower).map (· + extension.length)
  ends.min?.bind fun last =>
    let head := run.take last
    let candidate := head.drop (startOfPath head)
    if 5 ≤ candidate.length then some (String.ofList candidate) else none

/-- The bytes of a state, with the run of printable ones so far. -/
def scanRuns : List UInt8 → List Char → Option String
  | [], _ => none
  | byte :: rest, current =>
    if 0x20 ≤ byte ∧ byte < 0x7f then scanRuns rest (current ++ [Char.ofNat byte.toNat])
    else
      match pathWithin current with
      | some path => some path
      | none => scanRuns rest []

def binaryPath (payload : List UInt8) : Option String := scanRuns (payload ++ [0]) []

def fileNameOf (path : String) : String :=
  String.ofList (path.toList.reverse.takeWhile fun c => !isAnySlash c).reverse

def stripExtension (file : String) : String :=
  match rsplitDot file.toList with
  | some (stem, _) => String.ofList stem
  | none => file

def formatOf (file : String) : PluginFormat :=
  let lower := (asciiLowercase file).toList
  if ".vst3".toList.isSuffixOf lower then .vst3
  else if ".component".toList.isSuffixOf lower then .audioUnit
  else .vst2

/-- The name and the path in the events after an instance, up to the next one. -/
def describeFrom (utf16 : Bool) : List Event → Option String → Option String →
    Option String × Option String
  | [], display, path => (display, path)
  | event :: rest, display, path =>
    if event.id = eventNewPlugin ∨ event.id = eventInternalName then (display, path)
    else if event.id = eventDisplayName ∧ display.isNone then
      describeFrom utf16 rest (some (eventText event.payload utf16)) path
    else if event.id = eventPluginParams ∧ path.isNone then
      describeFrom utf16 rest display (binaryPath event.payload)
    else describeFrom utf16 rest display path

def describe (rest : List Event) (internal : String) (utf16 : Bool) : PluginRef :=
  let (display, path) := describeFrom utf16 rest none none
  let hosted := internal = wrapperName
  let fileName := path.map fileNameOf
  let stock := if internal = "" then "Sampler" else internal
  let (id, format) : PluginId × PluginFormat :=
    if hosted then
      match fileName with
      | some file => (.vst2ByFile (asciiLowercase file), formatOf file)
      | none => (.flNative (display.getD wrapperName), .unknown)
    else (.flNative stock, .native)
  let name :=
    if hosted then
      match fileName with
      | some file => stripExtension file
      | none => display.getD wrapperName
    else stock
  { name := name
    format := format
    id := id
    deviceType := none
    path := path
    instances := 1 }

/-- The loop over the events, with the last internal name that no instance has taken. -/
def collectInstances (utf16 : Bool) : List Event → Option String →
    List (String × PluginRef) → List (String × PluginRef)
  | [], _, found => found
  | event :: rest, internal, found =>
    if event.id = eventInternalName then
      collectInstances utf16 rest (some (eventText event.payload utf16)) found
    else if event.id = eventNewPlugin then
      match internal with
      | none => collectInstances utf16 rest none found
      | some kind =>
        let plugin := describe rest kind utf16
        collectInstances utf16 rest none (recordPlugin plugin.id.display plugin found)
    else collectInstances utf16 rest internal found

def collectPlugins (stream : Stream) : List PluginRef :=
  (collectInstances (usesUtf16 stream.majorVersion) stream.events none []).map Prod.snd

end FlStudio

end AuruPm
