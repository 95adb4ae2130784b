import AuruPm.PluginCollectors
import AuruPm.RewriteFrame

/-!
# Keys of collected plugins

What a collector gives as an identity is read back from its key, but for two kinds: a built-in
device of an application whose name has a colon, and a hosted plugin of FL Studio of which only an
empty display name is known.
-/

namespace AuruPm

set_option autoImplicit false

/-! Counting keeps identities. -/

theorem id_of_recordPlugin {K : Type} [Ord K] {key : K} {plugin p : PluginRef}
    {found : List (K × PluginRef)} (h : p ∈ (recordPlugin key plugin found).map Prod.snd) :
    p.id = plugin.id ∨ ∃ q ∈ found.map Prod.snd, p.id = q.id := by
  induction found with
  | nil =>
    simp only [recordPlugin, List.map_cons, List.map_nil, List.mem_singleton] at h
    exact .inl (congrArg PluginRef.id h)
  | cons entry rest ih =>
    obtain ⟨k, existing⟩ := entry
    simp only [recordPlugin] at h
    split at h
    · rcases List.mem_cons.mp h with rfl | h
      · exact .inl rfl
      · exact .inr ⟨p, h, rfl⟩
    · rcases List.mem_cons.mp h with rfl | h
      · exact .inr ⟨existing, by simp, rfl⟩
      · exact .inr ⟨p, List.mem_cons_of_mem _ h, rfl⟩
    · rcases List.mem_cons.mp h with rfl | h
      · exact .inr ⟨p, List.mem_cons_self, rfl⟩
      · rcases ih h with hid | ⟨q, hq, hid⟩
        · exact .inl hid
        · exact .inr ⟨q, List.mem_cons_of_mem _ hq, hid⟩

theorem id_of_recordPlugins {plugins : List PluginRef} {p : PluginRef}
    (h : p ∈ (recordPlugins plugins).map Prod.snd) : ∃ q ∈ plugins, p.id = q.id := by
  have hfold : ∀ (plugins : List PluginRef) (found : List (PluginId × PluginRef)),
      p ∈ (plugins.foldl (fun found plugin => recordPlugin plugin.id plugin found) found).map
        Prod.snd → (∃ q ∈ plugins, p.id = q.id) ∨ ∃ q ∈ found.map Prod.snd, p.id = q.id := by
    intro plugins
    induction plugins with
    | nil => exact fun found hmem => .inr ⟨p, hmem, rfl⟩
    | cons plugin plugins ih =>
      intro found hmem
      rcases ih _ hmem with ⟨q, hq, hid⟩ | ⟨q, hq, hid⟩
      · exact .inl ⟨q, List.mem_cons_of_mem _ hq, hid⟩
      · rcases id_of_recordPlugin hq with hid' | ⟨q', hq', hid'⟩
        · exact .inl ⟨plugin, List.mem_cons_self, hid.trans hid'⟩
        · exact .inr ⟨q', hq', hid.trans hid'⟩
  rcases hfold plugins [] h with hfound | ⟨q, hq, _⟩
  · exact hfound
  · cases hq

theorem id_of_sorted {devices : List XmlElement} {read : XmlElement → Option PluginRef}
    {p : PluginRef}
    (h : p ∈ sortPlugins ((recordPlugins (devices.filterMap read)).map Prod.snd)) :
    ∃ device ∈ devices, ∃ q, read device = some q ∧ p.id = q.id := by
  obtain ⟨q, hq, hid⟩ := id_of_recordPlugins (List.mem_mergeSort.mp h)
  obtain ⟨device, hdevice, hread⟩ := List.mem_filterMap.mp hq
  exact ⟨device, hdevice, q, hread, hid⟩

/-! Live. -/

section Valid
variable {C : CharClasses}

theorem tag_ne_empty {e : XmlElement} (h : e.validate C = .ok ()) : e.tag ≠ "" := by
  cases e with
  | mk tag id attributes children =>
    intro htag
    obtain rfl : tag = "" := htag
    have hname := (validate_iff.mp h).1
    simp [validateXmlName, projectFormatError] at hname

mutual
theorem validate_descendants (e : XmlElement) (h : e.validate C = .ok ()) {d : XmlElement}
    (hd : d ∈ e.descendants) : d.validate C = .ok () := by
  cases e with
  | mk tag id attributes children =>
    rw [XmlElement.descendants] at hd
    rcases List.mem_cons.mp hd with rfl | hd
    · exact h
    · exact validate_contentDescendants children (validate_iff.mp h).2.2.2 hd
theorem validate_contentDescendants (contents : List XmlContent)
    (h : validateContents C contents = .ok ()) {d : XmlElement}
    (hd : d ∈ XmlElement.contentDescendants contents) : d.validate C = .ok () := by
  cases contents with
  | nil => cases hd
  | cons content rest =>
    cases content with
    | element e =>
      obtain ⟨he, hrest⟩ := validateContents_cons_iff.mp h
      rw [XmlElement.contentDescendants] at hd
      rcases List.mem_append.mp hd with hd | hd
      · exact validate_descendants e he hd
      · exact validate_contentDescendants rest hrest hd
    | text _ => exact validate_contentDescendants rest h hd
    | cdata _ => exact validate_contentDescendants rest h hd
    | comment _ => exact validate_contentDescendants rest h hd
end

theorem validate_children {contents : List XmlContent} {d : XmlElement}
    (h : validateContents C contents = .ok ())
    (hd : d ∈ contents.filterMap XmlContent.element?) : d.validate C = .ok () := by
  induction contents with
  | nil => cases hd
  | cons content rest ih =>
    cases content with
    | element e =>
      obtain ⟨he, hrest⟩ := validateContents_cons_iff.mp h
      have hd : d ∈ e :: rest.filterMap XmlContent.element? := hd
      rcases List.mem_cons.mp hd with rfl | hd
      · exact he
      · exact ih hrest hd
    | text _ => exact ih h hd
    | cdata _ => exact ih h hd
    | comment _ => exact ih h hd

theorem validate_devicesOf {root device : XmlElement} (h : root.validate C = .ok ())
    (hdevice : device ∈ devicesOf root) : device.validate C = .ok () := by
  obtain ⟨devices, hdevices, hchild⟩ := List.mem_flatMap.mp hdevice
  have hvalid := validate_descendants root h (List.mem_filter.mp hdevices).1
  cases devices with
  | mk tag id attributes children => exact validate_children (validate_iff.mp hvalid).2.2.2 hchild

namespace Ableton

theorem readable_readInfo {node : XmlElement} {q : PluginRef} (h : readInfo node = some q) :
    q.id.Readable := by
  unfold readInfo at h
  split at h
  · obtain ⟨_, _, hq⟩ := Option.bind_eq_some_iff.mp h
    cases hq
    trivial
  · split at h
    · obtain ⟨_, _, hq⟩ := Option.bind_eq_some_iff.mp h
      cases hq
      trivial
    · split at h
      · obtain ⟨name, hname, hq⟩ := Option.bind_eq_some_iff.mp h
        cases hq
        have hkept := (Option.filter_eq_some_iff.mp hname).2
        have hne : name ≠ "" := by simpa using hkept
        exact hne
      · cases h

/-- Every identity of a valid set is read back. -/
theorem readable_collectPlugins {root : XmlElement} (h : root.validate C = .ok ())
    {p : PluginRef} (hp : p ∈ collectPlugins root) : p.id.Readable := by
  obtain ⟨device, hdevice, q, hread, hid⟩ := id_of_sorted hp
  rw [hid]
  unfold readDevice at hread
  split at hread
  · obtain ⟨node, _, hinfo⟩ := List.exists_of_findSome?_eq_some hread
    exact readable_readInfo hinfo
  · cases hread
    exact tag_ne_empty (validate_devicesOf h hdevice)

end Ableton

end Valid

/-! DAWproject. -/

namespace Dawproject

theorem filter_getD_ne {text : Option String} {other : String} (h : other ≠ "") :
    (text.filter (· ≠ "")).getD other ≠ "" := by
  cases hkept : text.filter (· ≠ "") with
  | none => exact h
  | some kept => simpa using (Option.filter_eq_some_iff.mp hkept).2

theorem deviceIdOf_ne (device : XmlElement) (h : device.tag ≠ "") : deviceIdOf device ≠ "" :=
  filter_getD_ne (filter_getD_ne h)

theorem applicationOf_ne (root : XmlElement) : applicationOf root ≠ "" :=
  filter_getD_ne (by decide)

/-- Which identities a device has. Only those of built-in devices have the application. -/
theorem readable_identify_iff {device : XmlElement} {application : String}
    (happlication : application ≠ "") {format : PluginFormat} {id : PluginId}
    (h : identify device application = some (format, id)) :
    id.Readable ↔ ∀ app deviceId, id = .dawprojectBuiltin app deviceId → ':' ∉ app.toList := by
  unfold identify at h
  simp only at h
  split at h
  · rename_i htag
    have hdevice := deviceIdOf_ne device (by rw [htag]; decide)
    cases h
    cases PluginId.parseU32 (deviceIdOf device) with
    | none => exact iff_of_true hdevice nofun
    | some uniqueId => exact iff_of_true trivial nofun
  · split at h
    · rename_i htag
      have hdevice := deviceIdOf_ne device (by rw [htag]; decide)
      cases h
      cases parseVst3Id (deviceIdOf device) with
      | none => exact iff_of_true hdevice nofun
      | some tuid => exact iff_of_true trivial nofun
    · split at h
      · rename_i htag
        have hdevice := deviceIdOf_ne device (by rw [htag]; decide)
        cases h
        exact iff_of_true hdevice nofun
      · split at h
        · rename_i htag
          have hdevice := deviceIdOf_ne device (by rw [htag]; decide)
          cases h
          exact iff_of_true hdevice nofun
        · split at h
          · rename_i htag
            have hdevice := deviceIdOf_ne device (by
              intro hempty
              rw [hempty] at htag
              exact absurd htag (by decide))
            cases h
            constructor
            · rintro hread app deviceId heq
              cases heq
              exact hread.1
            · exact fun hcolon => ⟨hcolon _ _ rfl, happlication, hdevice⟩
          · cases h

theorem readable_collectPlugins_iff {root : XmlElement} {p : PluginRef}
    (hp : p ∈ collectPlugins root) : p.id.Readable ↔
      ∀ app deviceId, p.id = .dawprojectBuiltin app deviceId → ':' ∉ app.toList := by
  obtain ⟨device, _, q, hread, hid⟩ := id_of_sorted hp
  obtain ⟨⟨format, id⟩, hidentify, rfl⟩ := Option.map_eq_some_iff.mp hread
  rw [hid]
  exact readable_identify_iff (applicationOf_ne root) hidentify

end Dawproject

/-! FL Studio. -/

namespace FlStudio

theorem findText_eq_some {needle text : List Char} {start : Nat}
    (h : findText needle text = some start) : ∃ rest, text.drop start = needle ++ rest := by
  induction text generalizing start with
  | nil =>
    simp only [findText] at h
    split at h
    · rename_i hprefix
      cases h
      obtain ⟨rest, hrest⟩ := List.isPrefixOf_iff_prefix.mp hprefix
      exact ⟨rest, hrest.symm⟩
    · cases h
  | cons c tail ih =>
    simp only [findText] at h
    split at h
    · rename_i hprefix
      cases h
      obtain ⟨rest, hrest⟩ := List.isPrefixOf_iff_prefix.mp hprefix
      exact ⟨rest, hrest.symm⟩
    · obtain ⟨before, hfind, rfl⟩ := Option.map_eq_some_iff.mp h
      exact ih hfind

theorem last_of_binaryExtensions {extension : List Char} (h : extension ∈ binaryExtensions) :
    ∃ c, extension.getLast? = some c ∧ c ∈ ['l', '3', 'o', 't'] := by
  simp only [binaryExtensions, List.mem_cons, List.not_mem_nil, or_false] at h
  rcases h with rfl | rfl | rfl | rfl
  · exact ⟨'l', by decide, by decide⟩
  · exact ⟨'3', by decide, by decide⟩
  · exact ⟨'o', by decide, by decide⟩
  · exact ⟨'t', by decide, by decide⟩

theorem isAnySlash_of_toLower {c : Char} (h : c.toLower ∈ ['l', '3', 'o', 't']) :
    isAnySlash c = false := by
  rw [isAnySlash, Bool.or_eq_false_iff, decide_eq_false_iff_not, decide_eq_false_iff_not]
  constructor
  · rintro rfl
    revert h
    decide
  · rintro rfl
    revert h
    decide

/-- A path ends in the extension that it was found by. -/
theorem pathWithin_last {run : List Char} {path : String} (h : pathWithin run = some path) :
    ∃ c, path.toList.getLast? = some c ∧ isAnySlash c = false := by
  obtain ⟨last, hmin, hpath⟩ := Option.bind_eq_some_iff.mp h
  obtain ⟨extension, hextension, hlast⟩ := List.mem_filterMap.mp (List.min?_mem hmin)
  obtain ⟨start, hfind, rfl⟩ := Option.map_eq_some_iff.mp hlast
  obtain ⟨rest, hrest⟩ := findText_eq_some hfind
  obtain ⟨e, he, hmem⟩ := last_of_binaryExtensions hextension
  have hhead : ((run.take (start + extension.length)).map Char.toLower).getLast? = some e := by
    rw [List.map_take, List.take_add, hrest, List.take_left, List.getLast?_append, he]
    rfl
  rw [List.getLast?_map, Option.map_eq_some_iff] at hhead
  obtain ⟨c, hc, rfl⟩ := hhead
  simp only at hpath
  split at hpath
  · rename_i hlength
    cases hpath
    refine ⟨c, ?_, isAnySlash_of_toLower hmem⟩
    rw [String.toList_ofList, List.getLast?_drop, if_neg, hc]
    rw [List.length_drop] at hlength
    omega
  · cases hpath

theorem fileNameOf_ne {path : String} {c : Char} (hlast : path.toList.getLast? = some c)
    (hslash : isAnySlash c = false) : fileNameOf path ≠ "" := by
  obtain ⟨init, hpath⟩ := List.getLast?_eq_some_iff.mp hlast
  rw [fileNameOf, hpath, List.reverse_append, List.reverse_singleton, List.singleton_append,
    List.takeWhile_cons_of_pos (by rw [hslash]; rfl)]
  intro hempty
  have := congrArg (fun s => s.toList.length) hempty
  simp at this

theorem pathWithin_of_scanRuns {bytes : List UInt8} {current : List Char} {path : String}
    (h : scanRuns bytes current = some path) : ∃ run, pathWithin run = some path := by
  induction bytes generalizing current with
  | nil => cases h
  | cons byte rest ih =>
    rw [scanRuns] at h
    split at h
    · exact ih h
    · split at h
      · rename_i found hfound
        cases h
        exact ⟨current, hfound⟩
      · exact ih h

theorem fileNameOf_binaryPath {payload : List UInt8} {path : String}
    (h : binaryPath payload = some path) : fileNameOf path ≠ "" := by
  obtain ⟨run, hrun⟩ := pathWithin_of_scanRuns h
  obtain ⟨c, hlast, hslash⟩ := pathWithin_last hrun
  exact fileNameOf_ne hlast hslash

theorem path_of_describeFrom {utf16 : Bool} {events : List Event} {display path : Option String}
    (hpath : ∀ p, path = some p → fileNameOf p ≠ "") {p : String}
    (h : (describeFrom utf16 events display path).2 = some p) : fileNameOf p ≠ "" := by
  induction events generalizing display path with
  | nil => exact hpath p h
  | cons event rest ih =>
    rw [describeFrom] at h
    split at h
    · exact hpath p h
    · split at h
      · exact ih hpath h
      · split at h
        · exact ih (fun q => fileNameOf_binaryPath) h
        · exact ih hpath h

theorem toLower_toLower (c : Char) : c.toLower.toLower = c.toLower := by
  unfold Char.toLower
  grind

theorem asciiLowercase_asciiLowercase (s : String) :
    asciiLowercase (asciiLowercase s) = asciiLowercase s := by
  rw [asciiLowercase, asciiLowercase, ← String.toList_inj, String.toList_map, String.toList_map,
    List.map_map]
  exact List.map_congr_left fun c _ => toLower_toLower c

theorem asciiLowercase_ne {s : String} (h : s ≠ "") : asciiLowercase s ≠ "" := by
  intro hempty
  apply h
  rw [← String.toList_inj] at hempty ⊢
  simpa [asciiLowercase] using hempty

/-- The identity of an instance. Its file name is never empty, but its display name may be. -/
theorem readable_describe_iff (rest : List Event) (internal : String) (utf16 : Bool) :
    (describe rest internal utf16).id.Readable ↔
      (describe rest internal utf16).id ≠ .flNative "" := by
  rcases hfrom : describeFrom utf16 rest none none with ⟨display, path⟩
  have hid : (describe rest internal utf16).id =
      if internal = wrapperName then
        (path.map fun found => .vst2ByFile (asciiLowercase (fileNameOf found))).getD
          (.flNative (display.getD wrapperName))
      else .flNative (if internal = "" then "Sampler" else internal) := by
    simp only [describe, hfrom]
    split
    · cases path <;> rfl
    · rfl
  have hnative : ∀ device, (PluginId.flNative device).Readable ↔
      PluginId.flNative device ≠ .flNative "" := by
    intro device
    rw [ne_eq, PluginId.flNative.injEq]
    rfl
  rw [hid]
  split
  · cases hpath : path with
    | none => exact hnative _
    | some found =>
      have hnone : ∀ p : String, none = some p → fileNameOf p ≠ "" := by
        intro p h
        cases h
      have hname : fileNameOf found ≠ "" :=
        path_of_describeFrom hnone (by rw [hfrom, hpath])
      exact iff_of_true ⟨asciiLowercase_ne hname, asciiLowercase_asciiLowercase _⟩
        (fun h => by cases h)
  · exact hnative _

/-- Every entry is an instance that the events describe. -/
theorem describe_of_collectInstances {utf16 : Bool} {events : List Event}
    {internal : Option String} {found : List (String × PluginRef)} {p : PluginRef}
    (h : p ∈ (collectInstances utf16 events internal found).map Prod.snd) :
    (∃ rest kind, p.id = (describe rest kind utf16).id) ∨ ∃ q ∈ found.map Prod.snd, p.id = q.id := by
  induction events generalizing internal found with
  | nil => exact .inr ⟨p, h, rfl⟩
  | cons event rest ih =>
    simp only [collectInstances] at h
    split at h
    · exact ih h
    · split at h
      · cases internal with
        | none => exact ih h
        | some kind =>
          rcases ih h with hrest | ⟨q, hq, hid⟩
          · exact .inl hrest
          · rcases id_of_recordPlugin hq with hid' | ⟨q', hq', hid'⟩
            · exact .inl ⟨rest, kind, hid.trans hid'⟩
            · exact .inr ⟨q', hq', hid.trans hid'⟩
      · exact ih h

theorem readable_collectPlugins_iff {stream : Stream} {p : PluginRef}
    (hp : p ∈ collectPlugins stream) : p.id.Readable ↔ p.id ≠ .flNative "" := by
  rcases describe_of_collectInstances hp with ⟨rest, kind, hid⟩ | ⟨q, hq, _⟩
  · rw [hid]
    exact readable_describe_iff rest kind _
  · cases hq

end FlStudio

/-! Keys. -/

/-- The identities that a collector gives for a snapshot that passes its checks. -/
inductive Collected (C : CharClasses) : PluginId → Prop
  | ableton {root : XmlElement} (hroot : root.validate C = .ok ()) {p : PluginRef}
      (hp : p ∈ Ableton.collectPlugins root) : Collected C p.id
  | dawproject {root : XmlElement} (hroot : root.validate C = .ok ()) {p : PluginRef}
      (hp : p ∈ Dawproject.collectPlugins root) : Collected C p.id
  | flStudio {stream : FlStudio.Stream} {p : PluginRef}
      (hp : p ∈ FlStudio.collectPlugins stream) : Collected C p.id

namespace PluginId

/-- No application name with a colon, and no wrapper without any name. -/
structure Delimited (id : PluginId) : Prop where
  application : ∀ app deviceId, id = .dawprojectBuiltin app deviceId → ':' ∉ app.toList
  device : id ≠ .flNative ""

theorem delimited_of_readable {id : PluginId} (h : id.Readable) : id.Delimited := by
  constructor
  · rintro app deviceId rfl
    exact h.1
  · rintro rfl
    exact h rfl

end PluginId

theorem readable_of_collected {C : CharClasses} {id : PluginId} (h : Collected C id)
    (hdelimited : id.Delimited) : id.Readable := by
  cases h with
  | ableton hroot hp => exact Ableton.readable_collectPlugins hroot hp
  | dawproject hroot hp => exact (Dawproject.readable_collectPlugins_iff hp).mpr hdelimited.application
  | flStudio hp => exact (FlStudio.readable_collectPlugins_iff hp).mpr hdelimited.device

/-- A collected identity is read back from its key exactly when its parts can be told apart, and
then no other such identity has its key. -/
theorem key_roundTrips_iff {C : CharClasses} {id : PluginId} (h : Collected C id) :
    (PluginId.fromStr id.display = .ok id ↔ id.Delimited) ∧
      ∀ other, Collected C other → id.Delimited → other.Delimited →
        id.display = other.display → id = other := by
  constructor
  · rw [PluginId.fromStr_display_iff]
    exact ⟨PluginId.delimited_of_readable, readable_of_collected h⟩
  · intro other hother hid hdelimited hkey
    have hread := (PluginId.fromStr_display_iff id).mpr (readable_of_collected h hid)
    have hread' := (PluginId.fromStr_display_iff other).mpr (readable_of_collected hother hdelimited)
    rw [hkey, hread'] at hread
    cases hread
    rfl

/-- A project of an application with one built-in device. -/
def builtinProject (application deviceId : String) : XmlElement :=
  .mk "Project" none [] [
    .element (.mk "Application" none [("name", application)] []),
    .element (.mk "Devices" none []
      [.element (.mk "BuiltinDevice" none [("deviceID", deviceId)] [])])]

theorem collected_builtin {application deviceId : String} (happlication : application ≠ "")
    (hdevice : deviceId ≠ "") :
    Collected Ableton.asciiClasses (.dawprojectBuiltin application deviceId) := by
  have hroot : (builtinProject application deviceId).validate Ableton.asciiClasses = .ok () := rfl
  have happ : Dawproject.applicationOf (builtinProject application deviceId) = application := by
    have hname : ((builtinProject application deviceId).child "Application").bind
        (fun e => e.attributeValue "name") = some application := rfl
    rw [Dawproject.applicationOf, hname, Option.filter_some, if_pos (by simpa using happlication)]
    rfl
  have hp : (⟨"BuiltinDevice", .native, .dawprojectBuiltin application deviceId, none, none, 1⟩ :
      PluginRef) ∈ Dawproject.collectPlugins (builtinProject application deviceId) := by
    have hdevices : devicesOf (builtinProject application deviceId) =
        [.mk "BuiltinDevice" none [("deviceID", deviceId)] []] := rfl
    have hid : Dawproject.deviceIdOf (.mk "BuiltinDevice" none [("deviceID", deviceId)] []) =
        deviceId := by
      have hvalue : (XmlElement.mk "BuiltinDevice" none [("deviceID", deviceId)] []).attributeValue
          "deviceID" = some deviceId := rfl
      rw [Dawproject.deviceIdOf, hvalue, Option.filter_some, if_pos (by simpa using hdevice)]
      rfl
    have hread : Dawproject.readDevice application
        (.mk "BuiltinDevice" none [("deviceID", deviceId)] []) =
          some ⟨"BuiltinDevice", .native, .dawprojectBuiltin application deviceId, none, none, 1⟩ := by
      simp only [Dawproject.readDevice, Dawproject.identify, hid]
      rfl
    rw [Dawproject.collectPlugins, happ, hdevices, List.filterMap_cons_some hread]
    exact List.mem_mergeSort.mpr List.mem_cons_self
  exact .dawproject hroot hp

theorem key_roundTrips_builtin :
    PluginId.fromStr "dawproject-builtin:Bitwig Studio:bitwig.eq" =
      .ok (.dawprojectBuiltin "Bitwig Studio" "bitwig.eq") := by
  have hcollected : Collected Ableton.asciiClasses
      (.dawprojectBuiltin "Bitwig Studio" "bitwig.eq") :=
    collected_builtin (by decide) (by decide)
  have h := (key_roundTrips_iff hcollected).1
  apply h.mpr
  constructor
  · intro app deviceId heq
    cases heq
    decide
  · exact nofun

theorem colon_application :
    Collected Ableton.asciiClasses (.dawprojectBuiltin "Studio: One" "eq") ∧
      Collected Ableton.asciiClasses (.dawprojectBuiltin "Studio" " One:eq") ∧
      (PluginId.dawprojectBuiltin "Studio: One" "eq").display =
        (PluginId.dawprojectBuiltin "Studio" " One:eq").display ∧
      PluginId.fromStr (PluginId.dawprojectBuiltin "Studio: One" "eq").display =
        .ok (.dawprojectBuiltin "Studio" " One:eq") :=
  ⟨collected_builtin (by decide) (by decide), collected_builtin (by decide) (by decide),
    by decide +kernel, by decide +kernel⟩

end AuruPm
