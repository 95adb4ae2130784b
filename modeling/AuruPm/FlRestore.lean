import AuruPm.ArchiveFixpoint
import AuruPm.FlSnapshot
import AuruPm.Lib.CodeUnits
import AuruPm.Lib.Oracle
import AuruPm.NativeRestore
import AuruPm.RestoreFolder
import AuruPm.SafePaths
import AuruPm.VerifiedCopy
import Mathlib.Data.String.Basic

/-!
# Restoring an FL Studio project

`flstudio/restore.rs` and its caller: the captured files are created beside the project, and the
sample paths in it are pointed at them. A path is written in the text encoding of the project, so
that it is read back only if that encoding holds it.
-/

namespace AuruPm

set_option autoImplicit false

open FileTree LexicalPath Restore SortedAssoc Threads

namespace FlStudio

/-! Paths as they are written. -/

def toNativeSeparators (path : String) : String :=
  String.ofList (path.toList.map fun c => if c = '/' then '\\' else c)

/-- A character that does not fit a byte is cut off. -/
def encodePath (path : String) (utf16 : Bool) : List UInt8 :=
  encodeText path (if utf16 then "utf16" else "ascii")

/-- A path as `refs::collect` reads it. -/
def readPath (utf16 : Bool) (payload : List UInt8) : String :=
  if utf16 then decodeUtf16 payload else decodeAscii payload

/-- The encoding has every character of the path, and no terminator is among them. -/
def Holds (utf16 : Bool) (path : String) : Prop :=
  ∀ c ∈ path.toList, c.toNat ≠ 0 ∧ (utf16 = false → c.toNat < 256)

theorem leUnits_encoded (units : List UInt16) (rest : List UInt8) :
    leUnits (units.flatMap (fun unit => toLeBytes 2 unit.toNat) ++ rest) = units ++ leUnits rest := by
  induction units with
  | nil => rfl
  | cons unit units ih =>
    have hunit : (unit.toNat.toUInt8.toNat + 256 * (unit.toNat / 256).toUInt8.toNat).toUInt16 = unit := by
      have hread : fromLeBytes (toLeBytes 2 unit.toNat) = unit.toNat :=
        fromLeBytes_toLeBytes unit.toNat_lt
      simp only [toLeBytes, fromLeBytes, List.foldr_cons, List.foldr_nil, Nat.mul_zero,
        Nat.add_zero] at hread
      rw [hread]
      exact UInt16.ofNat_toNat
    have hbytes : toLeBytes 2 unit.toNat = [unit.toNat.toUInt8, (unit.toNat / 256).toUInt8] := rfl
    rw [List.flatMap_cons, hbytes]
    simp only [List.cons_append, List.nil_append, leUnits, hunit]
    rw [ih]

/-- The units of a text are read back. -/
theorem decodeUtf16Units_encoded (text : List Char) :
    decodeUtf16Units (text.flatMap encodeUtf16) = text.map some := by
  induction text with
  | nil => rfl
  | cons c text ih =>
    have hvalid := c.valid
    rw [List.flatMap_cons, List.map_cons, encodeUtf16]
    split
    · rename_i hsmall
      have hunit : c.toNat.toUInt16.toNat = c.toNat := by
        simpa using hsmall
      rw [List.cons_append, List.nil_append, decodeUtf16Units.eq_def]
      dsimp only
      rw [hunit, if_pos, ih, Char.ofNat_toNat]
      rcases hvalid with h | h
      · exact .inl h
      · exact .inr h.1
    · rename_i hlarge
      have hmax : c.toNat < 0x110000 := by
        rcases hvalid with h | h
        · exact Nat.lt_trans h (by decide)
        · exact h.2
      have hhigh : (0xD800 + (c.toNat - 0x10000) / 0x400).toUInt16.toNat =
          0xD800 + (c.toNat - 0x10000) / 0x400 := by
        simp
        omega
      have hlow : (0xDC00 + (c.toNat - 0x10000) % 0x400).toUInt16.toNat =
          0xDC00 + (c.toNat - 0x10000) % 0x400 := by
        simp
        omega
      simp only [List.cons_append, List.nil_append]
      rw [decodeUtf16Units.eq_def]
      dsimp only
      rw [hhigh, hlow, if_neg (by omega), if_neg (by omega), if_pos (by omega), ih]
      have hback : 0x10000 + (0xD800 + (c.toNat - 0x10000) / 0x400 - 0xD800) * 0x400 +
          (0xDC00 + (c.toNat - 0x10000) % 0x400 - 0xDC00) = c.toNat := by
        omega
      rw [hback, Char.ofNat_toNat]

theorem ne_zero_of_encodeUtf16 {c : Char} (h : c.toNat ≠ 0) :
    ∀ unit ∈ encodeUtf16 c, decide (unit ≠ 0) = true := by
  intro unit hunit
  have hne : unit.toNat ≠ 0 := by
    have hmax : c.toNat < 0x110000 := CodeUnits.toNat_lt c
    unfold encodeUtf16 at hunit
    split at hunit
    · rename_i hsmall
      obtain rfl := List.mem_singleton.mp hunit
      simpa [Nat.mod_eq_of_lt hsmall] using h
    · simp only [List.mem_cons, List.not_mem_nil, or_false] at hunit
      rcases hunit with rfl | rfl <;> simp <;> omega
  simpa using fun heq : unit = 0 => hne (by rw [heq]; rfl)

/-- The units up to the terminator are those of the characters up to it. -/
theorem takeWhile_encodeUtf16 (text : List Char) :
    (text.flatMap encodeUtf16 ++ [0]).takeWhile (· ≠ 0) =
      (text.takeWhile fun c => c.toNat ≠ 0).flatMap encodeUtf16 := by
  induction text with
  | nil => rfl
  | cons c text ih =>
    by_cases hc : c.toNat = 0
    · have hunits : encodeUtf16 c = [0] := by
        rw [encodeUtf16, hc]
        rfl
      rw [List.flatMap_cons, hunits, List.takeWhile_cons_of_neg (by simpa using hc)]
      rfl
    · rw [List.takeWhile_cons_of_pos (by simpa using hc), List.flatMap_cons, List.flatMap_cons,
        List.append_assoc, List.takeWhile_append_of_pos (ne_zero_of_encodeUtf16 hc), ih]

theorem decodeUtf16_encodePath (path : String) :
    decodeUtf16 (encodePath path true) =
      String.ofList (path.toList.takeWhile fun c => c.toNat ≠ 0) := by
  have hencoded : encodePath path true =
      (path.toList.flatMap encodeUtf16).flatMap (fun unit => toLeBytes 2 unit.toNat) ++ [0, 0] := rfl
  rw [decodeUtf16, hencoded, leUnits_encoded]
  change String.ofList ((decodeUtf16Units
    ((path.toList.flatMap encodeUtf16 ++ [0]).takeWhile (· ≠ 0))).map _) = _
  rw [takeWhile_encodeUtf16, decodeUtf16Units_encoded, List.map_map]
  exact congrArg String.ofList (List.map_id _)

theorem decodeAscii_encodePath (path : String) :
    decodeAscii (encodePath path false) = String.ofList
      ((path.toList.map fun c => Char.ofNat (c.toNat % 256)).takeWhile fun c => c.toNat ≠ 0) := by
  have hencoded : encodePath path false = (path.toList.map fun c => c.toNat.toUInt8) ++ [0] := rfl
  rw [decodeAscii, hencoded]
  generalize path.toList = text
  congr 1
  induction text with
  | nil => rfl
  | cons c text ih =>
    have hbyte : (Char.ofNat (c.toNat % 256)).toNat = c.toNat % 256 := by
      rw [Char.ofNat, dif_pos (.inl (by omega))]
      rfl
    by_cases hc : c.toNat % 256 = 0
    · have hzero : c.toNat.toUInt8 = 0 := by
        apply UInt8.toNat_inj.mp
        simpa using hc
      simp [hzero, hc]
    · have hzero : c.toNat.toUInt8 ≠ 0 := fun heq => hc (by simpa using congrArg UInt8.toNat heq)
      simp only [List.map_cons, List.cons_append]
      rw [List.takeWhile_cons_of_pos (by simpa using hzero), List.map_cons,
        List.takeWhile_cons_of_pos (by simpa [hbyte] using hc), ih]
      simp

/-- A written path is read back exactly if the encoding holds it. -/
theorem readPath_encodePath_iff {utf16 : Bool} {path : String} :
    readPath utf16 (encodePath path utf16) = path ↔ Holds utf16 path := by
  have hlist : ∀ text : List Char, String.ofList text = path ↔ text = path.toList := by
    intro text
    exact ⟨fun h => by rw [← h, String.toList_ofList], fun h => by rw [h, String.ofList_toList]⟩
  cases utf16 with
  | true =>
    rw [readPath, if_pos rfl, decodeUtf16_encodePath, hlist, List.takeWhile_eq_self_iff]
    simp [Holds]
  | false =>
    rw [readPath, if_neg Bool.false_ne_true, decodeAscii_encodePath, hlist]
    have hkept : ∀ c : Char, Char.ofNat (c.toNat % 256) = c ↔ c.toNat < 256 := by
      intro c
      have hbyte : (Char.ofNat (c.toNat % 256)).toNat = c.toNat % 256 := by
        rw [Char.ofNat, dif_pos (.inl (by omega))]
        rfl
      constructor
      · intro h
        rw [← h, hbyte]
        exact Nat.mod_lt _ (by decide)
      · intro h
        rw [Nat.mod_eq_of_lt h, Char.ofNat_toNat]
    have hmap : path.toList.map (fun c => Char.ofNat (c.toNat % 256)) = path.toList ↔
        ∀ c ∈ path.toList, c.toNat < 256 := by
      rw [← forall₂_congr fun c _ => hkept c]
      conv_lhs => rhs; rw [← List.map_id path.toList]
      exact List.map_inj_left
    constructor
    · intro h
      have hall := (List.takeWhile_prefix (fun c : Char => decide (c.toNat ≠ 0))).eq_of_length
        ((congrArg List.length h).trans (List.length_map _).symm)
      have hsame := hall.symm.trans h
      rw [hsame, List.takeWhile_eq_self_iff] at h
      exact fun c hc => ⟨by simpa using h c hc, fun _ => hmap.mp hsame c hc⟩
    · intro h
      rw [hmap.mpr fun c hc => (h c hc).2 rfl, List.takeWhile_eq_self_iff]
      exact fun c hc => by simpa using (h c hc).1

/-! Repointing. -/

structure RepointReport where
  refsRepointed : Nat := 0
  stillMissing : List String := []
  deriving DecidableEq

/-- Whether a reference without a captured file is left to the project. -/
def RefClass.leftAlone : RefClass → Bool
  | .missing => true
  | .projectRelative => true
  | _ => false

/-- One reference, with the project and the report so far. -/
def repointRef (utf16 : Bool) (captured : List (String × String)) (s : Stream × RepointReport)
    (r : AssetRef) : Stream × RepointReport :=
  match get? captured r.recordedPath with
  | some destination =>
    ({ s.1 with
        events := s.1.events.modify r.eventIndex fun event =>
          { event with payload := encodePath (toNativeSeparators destination) utf16 } },
      { s.2 with refsRepointed := s.2.refsRepointed + 1 })
  | none =>
    if r.refClass.leftAlone then s
    else (s.1, { s.2 with stillMissing := s.2.stillMissing ++ [r.recordedPath] })

def pathLe (a b : String) : Bool := decide (a ≤ b)

/-- `Vec::dedup` -/
def dedup : List String → List String
  | [] => []
  | [path] => [path]
  | path :: next :: rest =>
    if path = next then dedup (next :: rest) else path :: dedup (next :: rest)

def repoint (home : Option String) (stream : Stream) (captured : List (String × String)) :
    Stream × RepointReport :=
  let utf16 := usesUtf16 stream.majorVersion
  let result := (collect home stream).foldl (repointRef utf16 captured) (stream, {})
  (result.1, { result.2 with
    stillMissing := dedup (result.2.stillMissing.mergeSort pathLe) })

/-- An event as it is left. -/
def repointedEvent (utf16 : Bool) (captured : List (String × String)) (event : Event) : Event :=
  if event.id = eventSamplePath then
    match get? captured (readPath utf16 event.payload) with
    | some destination => { event with payload := encodePath (toNativeSeparators destination) utf16 }
    | none => event
  else event

section Repoint
variable {home : Option String} {utf16 : Bool} {captured : List (String × String)} {stream : Stream}

/-- The reference that an event holds. -/
def refOf (utf16 : Bool) (home : Option String) (index : Nat) (event : Event) : AssetRef :=
  let recorded := readPath utf16 event.payload
  let expanded := expandVariables home recorded
  ⟨recorded, expanded, classify recorded expanded, index⟩

theorem collectFrom_cons (index : Nat) (event : Event) (rest : List Event) :
    collectFrom utf16 home index (event :: rest) =
      if event.id = eventSamplePath then
        refOf utf16 home index event :: collectFrom utf16 home (index + 1) rest
      else collectFrom utf16 home (index + 1) rest := by
  cases utf16 <;> rfl

theorem modify_length_append {α : Type} (f : α → α) (done : List α) (a : α) (rest : List α) :
    (done ++ a :: rest).modify done.length f = done ++ f a :: rest := by
  induction done with
  | nil => rfl
  | cons b done ih => rw [List.cons_append, List.length_cons, List.modify_succ_cons, ih]; rfl

/-- The paths that a repoint finds no file for. -/
def missingPaths (captured : List (String × String)) (refs : List AssetRef) : List String :=
  (refs.filter fun r => (get? captured r.recordedPath).isNone && !r.refClass.leftAlone).map
    AssetRef.recordedPath

def capturedCount (captured : List (String × String)) (refs : List AssetRef) : Nat :=
  refs.countP fun r => (get? captured r.recordedPath).isSome

/-- The loop changes each event by itself. -/
theorem foldl_repointRef (header : Header) (done rest : List Event) (report : RepointReport) :
    (collectFrom utf16 home done.length rest).foldl (repointRef utf16 captured)
        (⟨header, done ++ rest⟩, report) =
      (⟨header, done ++ rest.map (repointedEvent utf16 captured)⟩,
        ⟨report.refsRepointed + capturedCount captured (collectFrom utf16 home done.length rest),
          report.stillMissing ++ missingPaths captured (collectFrom utf16 home done.length rest)⟩) := by
  induction rest generalizing done report with
  | nil => simp [collectFrom, capturedCount, missingPaths]
  | cons event rest ih =>
    have hnext : ∀ event' report', (collectFrom utf16 home (done.length + 1) rest).foldl
        (repointRef utf16 captured) (⟨header, done ++ event' :: rest⟩, report') =
          (⟨header, done ++ event' :: rest.map (repointedEvent utf16 captured)⟩,
            ⟨report'.refsRepointed +
                capturedCount captured (collectFrom utf16 home (done.length + 1) rest),
              report'.stillMissing ++
                missingPaths captured (collectFrom utf16 home (done.length + 1) rest)⟩) := by
      intro event' report'
      have h := ih (done ++ [event']) report'
      rw [List.append_assoc, List.append_assoc, List.length_append] at h
      exact h
    rw [collectFrom_cons, List.map_cons, repointedEvent]
    split
    · rename_i hid
      rw [List.foldl_cons, repointRef]
      have hrecorded : (refOf utf16 home done.length event).recordedPath =
          readPath utf16 event.payload := rfl
      rw [hrecorded]
      cases hget : get? captured (readPath utf16 event.payload) with
      | some destination =>
        dsimp only
        have hindex : (refOf utf16 home done.length event).eventIndex = done.length := rfl
        rw [hindex, modify_length_append, hnext]
        simp [capturedCount, missingPaths, hrecorded, hget]
        omega
      | none =>
        dsimp only
        by_cases hleft : (refOf utf16 home done.length event).refClass.leftAlone = true
        · rw [if_pos hleft, hnext]
          simp [capturedCount, missingPaths, hrecorded, hget, hleft]
        · rw [if_neg hleft, hnext]
          simp [capturedCount, missingPaths, hrecorded, hget, hleft]
    · rw [hnext]

/-- What a repoint does, without its loop. -/
theorem repoint_eq : repoint home stream captured =
    ({ stream with
        events := stream.events.map (repointedEvent (usesUtf16 stream.majorVersion) captured) },
      { refsRepointed := capturedCount captured (collect home stream)
        stillMissing := dedup ((missingPaths captured (collect home stream)).mergeSort pathLe) }) := by
  have h := @foldl_repointRef home (usesUtf16 stream.majorVersion) captured stream.header []
    stream.events {}
  simp only [List.nil_append, List.length_nil, Nat.zero_add] at h
  rw [repoint]
  simp only [collect]
  rw [h]

theorem pathLe_trans (a b c : String) (h : pathLe a b = true) (h' : pathLe b c = true) :
    pathLe a c = true :=
  decide_eq_true (le_trans (of_decide_eq_true h) (of_decide_eq_true h'))

theorem pathLe_total (a b : String) : (pathLe a b || pathLe b a) = true := by
  simpa [pathLe] using le_total a b

theorem mem_dedup {path : String} {paths : List String} : path ∈ dedup paths ↔ path ∈ paths := by
  induction paths using dedup.induct with
  | case1 => rfl
  | case2 => rfl
  | case3 next rest ih =>
    rw [dedup, if_pos rfl, ih]
    simp
  | case4 first next rest hne ih =>
    rw [dedup, if_neg hne, List.mem_cons, ih, ← List.mem_cons]

theorem pairwise_dedup {paths : List String} (h : paths.Pairwise (· ≤ ·)) :
    (dedup paths).Pairwise (· < ·) := by
  induction paths using dedup.induct with
  | case1 => exact .nil
  | case2 path => exact List.pairwise_singleton _ _
  | case3 next rest ih =>
    rw [dedup, if_pos rfl]
    exact ih (List.pairwise_cons.mp h).2
  | case4 first next rest hne ih =>
    obtain ⟨hfirst, hrest⟩ := List.pairwise_cons.mp h
    rw [dedup, if_neg hne]
    refine List.pairwise_cons.mpr ⟨fun path hpath => ?_, ih hrest⟩
    have hnext : next ≤ path := by
      rcases List.mem_cons.mp (mem_dedup.mp hpath) with rfl | hpath
      · exact le_refl _
      · exact (List.pairwise_cons.mp hrest).1 path hpath
    exact lt_of_lt_of_le (lt_of_le_of_ne (hfirst next List.mem_cons_self) hne) hnext

/-- The report names each missing path once, in order. -/
theorem stillMissing_repoint :
    (repoint home stream captured).2.stillMissing.Pairwise (· < ·) ∧
      ∀ path, path ∈ (repoint home stream captured).2.stillMissing ↔
        ∃ r ∈ collect home stream, r.recordedPath = path ∧ get? captured path = none ∧
          r.refClass.shouldVendor = true := by
  rw [repoint_eq]
  constructor
  · refine pairwise_dedup ?_
    have h : ((missingPaths captured (collect home stream)).mergeSort pathLe).Pairwise fun a b =>
        pathLe a b = true :=
      List.pairwise_mergeSort pathLe_trans pathLe_total _
    exact h.imp of_decide_eq_true
  · intro path
    rw [mem_dedup, List.mem_mergeSort, missingPaths, List.mem_map]
    constructor
    · rintro ⟨r, hr, rfl⟩
      obtain ⟨hmem, hr⟩ := List.mem_filter.mp hr
      rw [Bool.and_eq_true, Option.isNone_iff_eq_none] at hr
      refine ⟨r, hmem, rfl, hr.1, ?_⟩
      have hclass := hr.2
      cases hr' : r.refClass <;> rw [hr'] at hclass <;> first | rfl | cases hclass
    · rintro ⟨r, hmem, rfl, hnone, hclass⟩
      refine ⟨r, List.mem_filter.mpr ⟨hmem, ?_⟩, rfl⟩
      rw [hnone]
      cases hr : r.refClass <;> rw [hr] at hclass <;> first | rfl | cases hclass

theorem id_repointedEvent (event : Event) : (repointedEvent utf16 captured event).id = event.id := by
  unfold repointedEvent
  split
  · split <;> rfl
  · rfl

/-- Only sample paths are touched, so the version is read as before. -/
theorem majorVersion_repoint :
    (repoint home stream captured).1.majorVersion = stream.majorVersion := by
  have hother : ∀ event : Event, event.id = eventVersion →
      repointedEvent (usesUtf16 stream.majorVersion) captured event = event := by
    intro event hid
    rw [repointedEvent, if_neg]
    rw [hid]
    decide
  have hversion : (repoint home stream captured).1.version = stream.version := by
    rw [repoint_eq]
    unfold Stream.version
    dsimp only
    rw [List.find?_map]
    have hfind : ((fun event : Event => decide (event.id = eventVersion)) ∘
        repointedEvent (usesUtf16 stream.majorVersion) captured) =
          fun event => decide (event.id = eventVersion) := by
      funext event
      simp only [Function.comp_apply, id_repointedEvent]
    rw [hfind]
    cases hfound : stream.events.find? fun event => decide (event.id = eventVersion) with
    | none => rfl
    | some event =>
      rw [Option.map_some, hother event (by simpa using List.find?_some hfound)]
  unfold Stream.majorVersion
  rw [hversion]

/-- A reference as it is read from the repointed project. -/
def repointedRef (home : Option String) (captured : List (String × String)) (r : AssetRef) : AssetRef :=
  match get? captured r.recordedPath with
  | some destination =>
    let recorded := toNativeSeparators destination
    let expanded := expandVariables home recorded
    ⟨recorded, expanded, classify recorded expanded, r.eventIndex⟩
  | none => r

/-- Every place that a reference is pointed at is held by the encoding of the project. -/
def Representable (home : Option String) (stream : Stream) (captured : List (String × String)) : Prop :=
  ∀ r ∈ collect home stream, ∀ destination, get? captured r.recordedPath = some destination →
    Holds (usesUtf16 stream.majorVersion) (toNativeSeparators destination)

theorem collectFrom_repointed_iff (index : Nat) (events : List Event) :
    collectFrom utf16 home index (events.map (repointedEvent utf16 captured)) =
        (collectFrom utf16 home index events).map (repointedRef home captured) ↔
      ∀ r ∈ collectFrom utf16 home index events, ∀ destination,
        get? captured r.recordedPath = some destination →
          Holds utf16 (toNativeSeparators destination) := by
  induction events generalizing index with
  | nil => simp [collectFrom]
  | cons event rest ih =>
    rw [List.map_cons, collectFrom_cons, collectFrom_cons, id_repointedEvent]
    split
    · rename_i hid
      rw [List.map_cons, List.cons.injEq, ih, List.forall_mem_cons]
      refine and_congr ?_ Iff.rfl
      have hrecorded : (refOf utf16 home index event).recordedPath = readPath utf16 event.payload := rfl
      rw [repointedEvent, if_pos hid, repointedRef, hrecorded]
      cases hget : get? captured (readPath utf16 event.payload) with
      | none => simp
      | some destination =>
        simp only [Option.some.injEq, forall_eq']
        rw [← readPath_encodePath_iff]
        constructor
        · exact fun h => congrArg AssetRef.recordedPath h
        · intro h
          simp only [refOf, h]
    · exact ih (index + 1)

/-- The references are read back as they were pointed exactly if their paths are representable. -/
theorem collect_repoint_iff :
    collect home (repoint home stream captured).1 =
        (collect home stream).map (repointedRef home captured) ↔
      Representable home stream captured := by
  unfold collect
  rw [majorVersion_repoint, repoint_eq]
  exact collectFrom_repointed_iff 0 stream.events

theorem forall₂_repointedEvent (events : List Event) :
    List.Forall₂ (fun event event' => event' = event ∨
      event.id = eventSamplePath ∧ ∃ destination,
        get? captured (readPath utf16 event.payload) = some destination ∧
          event' = { event with payload := encodePath (toNativeSeparators destination) utf16 })
      events (events.map (repointedEvent utf16 captured)) := by
  rw [List.forall₂_map_right_iff, List.forall₂_same]
  intro event _
  unfold repointedEvent
  split
  · rename_i hid
    cases get? captured (readPath utf16 event.payload) with
    | none => exact .inl rfl
    | some destination => exact .inr ⟨hid, destination, rfl, rfl⟩
  · exact .inl rfl

/-- A second repoint misses what the first did, and the places that are no longer beside the
project. -/
theorem mem_stillMissing_again (h : Representable home stream captured) (path : String) :
    path ∈ (repoint home (repoint home stream captured).1 captured).2.stillMissing ↔
      path ∈ (repoint home stream captured).2.stillMissing ∨
        ∃ r ∈ collect home stream, ∃ destination, get? captured r.recordedPath = some destination ∧
          toNativeSeparators destination = path ∧ get? captured path = none ∧
            (repointedRef home captured r).refClass.shouldVendor = true := by
  rw [stillMissing_repoint.2, stillMissing_repoint.2, collect_repoint_iff.mpr h]
  have hnone : ∀ r : AssetRef, get? captured r.recordedPath = none →
      repointedRef home captured r = r := by
    intro r hr
    rw [repointedRef, hr]
  have hsome : ∀ (r : AssetRef) destination, get? captured r.recordedPath = some destination →
      (repointedRef home captured r).recordedPath = toNativeSeparators destination := by
    intro r destination hr
    rw [repointedRef, hr]
  constructor
  · rintro ⟨r', hr', hpath, hmissing, hclass⟩
    obtain ⟨r, hr, rfl⟩ := List.mem_map.mp hr'
    cases hget : get? captured r.recordedPath with
    | none =>
      rw [hnone r hget] at hpath hclass
      exact .inl ⟨r, hr, hpath, hmissing, hclass⟩
    | some destination =>
      rw [hsome r destination hget] at hpath
      exact .inr ⟨r, hr, destination, hget, hpath, hmissing, hclass⟩
  · rintro (⟨r, hr, rfl, hmissing, hclass⟩ | ⟨r, hr, destination, hget, rfl, hmissing, hclass⟩)
    · refine ⟨r, List.mem_map.mpr ⟨r, hr, hnone r hmissing⟩, rfl, hmissing, hclass⟩
    · exact ⟨_, List.mem_map_of_mem hr, hsome r destination hget, hmissing, hclass⟩

/-- Repointing touches no event but the sample paths that a captured file is known for, names each
other path that leaves the project once and in order, and is read back reference by reference
exactly if the encoding of the project holds the new paths. A second repoint then misses more only
where a new path is not beside the project. -/
theorem repoint_reads_back (home : Option String) (stream : Stream) (captured : List (String × String)) :
    ((repoint home stream captured).1.header = stream.header ∧
      List.Forall₂ (fun event event' => event' = event ∨
        event.id = eventSamplePath ∧ ∃ destination,
          get? captured (readPath (usesUtf16 stream.majorVersion) event.payload) = some destination ∧
            event' = { event with
              payload := encodePath (toNativeSeparators destination) (usesUtf16 stream.majorVersion) })
        stream.events (repoint home stream captured).1.events) ∧
    ((repoint home stream captured).2.refsRepointed = capturedCount captured (collect home stream) ∧
      (repoint home stream captured).2.stillMissing.Pairwise (· < ·) ∧
      ∀ path, path ∈ (repoint home stream captured).2.stillMissing ↔
        ∃ r ∈ collect home stream, r.recordedPath = path ∧ get? captured path = none ∧
          r.refClass.shouldVendor = true) ∧
    (collect home (repoint home stream captured).1 =
        (collect home stream).map (repointedRef home captured) ↔
      Representable home stream captured) ∧
    (Representable home stream captured →
      ((repoint home (repoint home stream captured).1 captured).2.stillMissing =
          (repoint home stream captured).2.stillMissing ↔
        ∀ r ∈ collect home stream, ∀ destination, get? captured r.recordedPath = some destination →
          get? captured (toNativeSeparators destination) = none →
          (repointedRef home captured r).refClass.shouldVendor = true →
            toNativeSeparators destination ∈ (repoint home stream captured).2.stillMissing)) := by
  refine ⟨?_, ⟨by rw [repoint_eq], stillMissing_repoint⟩, collect_repoint_iff, fun h => ?_⟩
  · rw [repoint_eq]
    exact ⟨rfl, forall₂_repointedEvent stream.events⟩
  · constructor
    · intro heq r hr destination hget hmissing hclass
      rw [← heq]
      exact (mem_stillMissing_again h _).mpr (.inr ⟨r, hr, destination, hget, rfl, hmissing, hclass⟩)
    · intro hmore
      -- both lists are in order and without repetition
      refine List.Perm.eq_of_pairwise (fun a b _ _ hab hba => absurd (hab.trans hba) (lt_irrefl a))
        stillMissing_repoint.1 stillMissing_repoint.1 ?_
      refine (List.perm_ext_iff_of_nodup (stillMissing_repoint.1.imp fun h => h.ne)
        (stillMissing_repoint.1.imp fun h => h.ne)).mpr fun path => ?_
      rw [mem_stillMissing_again h]
      refine or_iff_left_of_imp ?_
      rintro ⟨r, hr, destination, hget, rfl, hmissing, hclass⟩
      exact hmore r hr destination hget hmissing hclass

end Repoint

/-! The restore. -/

/-- The folder so far, the paths its files were captured from, and their number. -/
structure Restoring where
  folder : DirTree (List UInt8)
  captured : List (String × String) := []
  filesWritten : Nat := 0

def writeAsset (host : Host) (relative : String) (bytes : List UInt8) (t : DirTree (List UInt8)) :
    Except String (DirTree (List UInt8)) := do
  let destination ← safeJoin .posix [] relative
  ioResult (create host (newFile bytes) (names destination) t)

section Program
variable {Hash : Type} (F : Formats (List UInt8) Hash) (C : Codecs (List UInt8) Hash)
variable (home : Option String) (host : Host)

def recordOrigin (captured : List (String × String)) (entry : SampleEntry Hash) :
    List (String × String) :=
  match entry.origin with
  | some origin => insert origin entry.path captured
  | none => captured

def restoreAsset (s : Restoring) (asset : SampleEntry Hash × List UInt8) :
    Except String Restoring := do
  let folder ← AuruPm.wrapped ("restore " ++ asset.1.path)
    (writeAsset host asset.1.path asset.2 s.folder)
  return ⟨folder, recordOrigin s.captured asset.1, s.filesWritten + 1⟩

/-- The loop over the manifest. A file that the provider does not give is left out. -/
def restoreAssets : List (SampleEntry Hash) → Restoring →
    AuruPm.Reading (List UInt8) Hash Restoring
  | [], s => pure s
  | entry :: rest, s => do
    match ← Prog.attempt (ReadCall.getBlob entry.hash) with
    | .error _ => restoreAssets rest s
    | .ok bytes => do
      let s ← Prog.ofExcept (restoreAsset host s (entry, bytes))
      restoreAssets rest s

variable [DecidableEq Hash]

/-- `restore_fl`. With the result it returns what the folder then holds. -/
def restoreFl (commit : Commit Hash) (snapshot : ProjectSnapshot (List UInt8))
    (restoreRoot : HostPath) (place : Option (DirTree (List UInt8))) (fileName : FileName) :
    AuruPm.Reading (List UInt8) Hash (DirTree (List UInt8) × RestoreResult) := do
  let manifestBytes ← Prog.run (ReadCall.getBlob commit.tree.samples) (during "fetch sample list")
  let manifest ← Prog.ofExcept (AuruPm.wrapped "read sample list" (F.decodeManifest manifestBytes))
  let source ← Prog.ofExcept (AuruPm.wrapped "rebuild FL project" (snapshot.restoreBytes F C))
  let stream ← Prog.ofExcept (AuruPm.wrapped "read rebuilt FL project" (Stream.decode source))
  let t ← Prog.ofExcept (AuruPm.wrapped "create restore folder" (createDestination host place))
  let s ← restoreAssets host manifest.entries { folder := t }
  let repointing := repoint home stream s.captured
  let projectFile := restoreRoot.join (HostPath.ofText fileName.name)
  let t ← Prog.ofExcept (AuruPm.wrapped
    ("write restored FL project: create " ++ projectFile.display)
    (create host (newFile repointing.1.encode) [fileName.name] s.folder))
  pure (t, ⟨projectFile, s.filesWritten, repointing.2.stillMissing.length, 0, none⟩)

end Program

/-! Where a captured file goes. -/

/-- The names in a recorded path. -/
def assetPath (path : String) : List String := pushed (segments isAnySlash path)

/-- A path that is not refused. -/
structure Joinable (path : String) : Prop where
  named : assetPath path ≠ []
  inside : ∀ part ∈ segments isAnySlash path, part ≠ ".." ∧ ':' ∉ part.toList

theorem joinParts_ok (relative : String) {parts : List String}
    (h : ∀ part ∈ parts, part ≠ ".." ∧ ':' ∉ part.toList) (root : Path) :
    ∃ joined, joinParts .posix relative root parts = .ok joined := by
  induction parts generalizing root with
  | nil => exact ⟨root, rfl⟩
  | cons part parts ih =>
    obtain ⟨hpart, hparts⟩ := List.forall_mem_cons.mp h
    rw [joinParts]
    split
    · exact ih hparts root
    · rw [if_neg hpart.1, if_neg hpart.2]
      exact ih hparts _

theorem of_joinParts_ok {relative : String} {parts : List String} {root joined : Path}
    (h : joinParts .posix relative root parts = .ok joined) :
    ∀ part ∈ parts, part ≠ ".." ∧ ':' ∉ part.toList := by
  induction parts generalizing root with
  | nil => exact fun _ hpart => absurd hpart List.not_mem_nil
  | cons part parts ih =>
    rw [joinParts] at h
    refine List.forall_mem_cons.mpr ?_
    split at h
    · rename_i hskip
      refine ⟨?_, ih h⟩
      rcases hskip with rfl | rfl <;> decide
    · split at h
      · cases h
      rename_i hup
      split at h
      · cases h
      rename_i hcolon
      exact ⟨⟨hup, hcolon⟩, ih h⟩

theorem safeJoin_ok_iff {relative : String} {joined : Path} :
    safeJoin .posix [] relative = .ok joined ↔
      Joinable relative ∧ joined = (assetPath relative).map .normal := by
  have hjoined : ∀ destination, joinParts .posix relative [] (segments isAnySlash relative) =
      .ok destination → destination = (assetPath relative).map .normal := fun destination h =>
    (joinParts_eq (fun part => ordinary_of_segment) h).trans (List.nil_append _)
  have hempty : relative = "" → assetPath relative = [] := by
    rintro rfl
    decide
  rw [safeJoin]
  constructor
  · intro h
    split at h
    · cases h
    split at h
    · cases h
    rename_i destination hparts
    split at h
    · cases h
    rename_i hne
    obtain rfl := Except.ok.inj h
    have heq := hjoined _ hparts
    refine ⟨⟨fun hnil => hne ?_, of_joinParts_ok hparts⟩, heq⟩
    rw [heq, hnil, List.map_nil]
  · rintro ⟨hjoinable, rfl⟩
    obtain ⟨destination, hparts⟩ := joinParts_ok relative hjoinable.inside []
    obtain rfl := hjoined _ hparts
    rw [if_neg fun h => hjoinable.named (hempty h), hparts]
    dsimp only
    rw [if_neg fun h => hjoinable.named (List.map_eq_nil_iff.mp h)]

theorem writeAsset_ok_iff {host : Host} {relative : String} {bytes : List UInt8}
    {t t' : DirTree (List UInt8)} :
    writeAsset host relative bytes t = .ok t' ↔ Joinable relative ∧
      create host (newFile bytes) (assetPath relative) t = .ok t' := by
  rw [writeAsset, bind_ok_iff]
  simp only [safeJoin_ok_iff, ioResult_ok_iff]
  constructor
  · rintro ⟨_, ⟨hjoinable, rfl⟩, ht'⟩
    exact ⟨hjoinable, names_map (assetPath relative) ▸ ht'⟩
  · rintro ⟨hjoinable, ht'⟩
    exact ⟨_, ⟨hjoinable, rfl⟩, (names_map (assetPath relative)).symm ▸ ht'⟩

/-! What a restore leaves. -/

section Restored
variable {Hash : Type} {F : Formats (List UInt8) Hash} {C : Codecs (List UInt8) Hash}
variable {home : Option String} {host : Host} {answer : Answers (List UInt8) Hash}
variable {assets : List (SampleEntry Hash × List UInt8)} {files : List (List String × List UInt8)}

/-- The entries that the provider gives, with their bytes. -/
def given (answer : Answers (List UInt8) Hash) (entries : List (SampleEntry Hash)) :
    List (SampleEntry Hash × List UInt8) :=
  entries.filterMap fun entry => (answer (.getBlob entry.hash)).toOption.map fun bytes => (entry, bytes)

def assetFile (asset : SampleEntry Hash × List UInt8) : List String × List UInt8 :=
  (assetPath asset.1.path, asset.2)

/-- Where the file for a recorded path is, the last one given for it. -/
def capturedFrom (assets : List (SampleEntry Hash × List UInt8)) (captured : List (String × String)) :
    List (String × String) :=
  assets.foldl (fun captured asset => recordOrigin captured asset.1) captured

theorem eval_restoreAssets (entries : List (SampleEntry Hash)) (s : Restoring) :
    (restoreAssets host entries s).eval answer =
      (given answer entries).foldlM (restoreAsset host) s := by
  induction entries generalizing s with
  | nil => rfl
  | cons entry rest ih =>
    rw [restoreAssets, Prog.eval_attempt_bind, given, List.filterMap_cons]
    cases answer (.getBlob entry.hash) with
    | error e => exact ih s
    | ok bytes =>
      dsimp only [Except.toOption, Option.map_some]
      rw [List.foldlM_cons]
      cases restoreAsset host s (entry, bytes) with
      | error e => rfl
      | ok s' => exact ih s'

theorem restoreAsset_ok_iff {s s' : Restoring} {asset : SampleEntry Hash × List UInt8} :
    restoreAsset host s asset = .ok s' ↔ Joinable asset.1.path ∧
      create host (newFile asset.2) (assetPath asset.1.path) s.folder = .ok s'.folder ∧
        s'.captured = capturedFrom [asset] s.captured ∧ s'.filesWritten = s.filesWritten + 1 := by
  rw [restoreAsset, bind_ok_iff]
  simp only [wrapped_ok_iff, writeAsset_ok_iff]
  constructor
  · rintro ⟨folder, ⟨hjoinable, hfolder⟩, hs'⟩
    obtain rfl := Except.ok.inj hs'
    exact ⟨hjoinable, hfolder, rfl, rfl⟩
  · rintro ⟨hjoinable, hfolder, hcaptured, hwritten⟩
    refine ⟨s'.folder, ⟨hjoinable, hfolder⟩, ?_⟩
    cases s'
    dsimp only at hcaptured hwritten
    rw [hcaptured, hwritten]
    rfl

/-- The loop ends well exactly when each given file has a place. -/
theorem restoreAssets_ok_iff {s : Restoring} (h : Laid files [[]] (some s.folder)) :
    (∃ s', assets.foldlM (restoreAsset host) s = .ok s') ↔
      (∀ asset ∈ assets, Joinable asset.1.path) ∧ Creatable host files (assets.map assetFile) := by
  induction assets generalizing files s with
  | nil => exact ⟨fun _ => ⟨by simp, creatable_nil⟩, fun _ => ⟨s, rfl⟩⟩
  | cons asset rest ih =>
    rw [List.map_cons, creatable_cons_iff, List.forall_mem_cons, List.foldlM_cons]
    have hstep : Joinable asset.1.path → ((∃ t, create host (newFile asset.2)
        (assetPath asset.1.path) s.folder = .ok t) ↔ host.creates (assetFile asset).1 = true ∧
          ∀ f ∈ files, FileTree.Apart f.1 (assetFile asset).1) := fun hjoinable =>
      exists_newFile_iff h hjoinable.named
    constructor
    · rintro ⟨s', hs'⟩
      obtain ⟨s₁, hs₁, hrest⟩ := bind_ok_iff.mp hs'
      obtain ⟨hjoinable, hfolder, -⟩ := restoreAsset_ok_iff.mp hs₁
      obtain ⟨hjoinables, hcreatable⟩ := (ih (laid_created h hfolder)).mp ⟨s', hrest⟩
      exact ⟨⟨hjoinable, hjoinables⟩, (hstep hjoinable).mp ⟨_, hfolder⟩, hcreatable⟩
    · rintro ⟨⟨hjoinable, hjoinables⟩, hfirst, hcreatable⟩
      obtain ⟨t, ht⟩ := (hstep hjoinable).mpr hfirst
      have hs₁ : restoreAsset host s asset =
          .ok ⟨t, capturedFrom [asset] s.captured, s.filesWritten + 1⟩ :=
        restoreAsset_ok_iff.mpr ⟨hjoinable, ht, rfl, rfl⟩
      obtain ⟨s', hrest⟩ := (ih (s := ⟨t, capturedFrom [asset] s.captured, s.filesWritten + 1⟩)
        (laid_created h ht)).mpr ⟨hjoinables, hcreatable⟩
      exact ⟨s', bind_ok_iff.mpr ⟨_, hs₁, hrest⟩⟩

theorem restoreAssets_spec {s s' : Restoring} (h : Laid files [[]] (some s.folder))
    (hs' : assets.foldlM (restoreAsset host) s = .ok s') :
    Laid ((assets.map assetFile).reverse ++ files) [[]] (some s'.folder) ∧
      s'.captured = capturedFrom assets s.captured ∧
        s'.filesWritten = s.filesWritten + assets.length := by
  induction assets generalizing files s with
  | nil =>
    obtain rfl := Except.ok.inj hs'
    exact ⟨h, rfl, rfl⟩
  | cons asset rest ih =>
    rw [List.foldlM_cons] at hs'
    obtain ⟨s₁, hs₁, hrest⟩ := bind_ok_iff.mp hs'
    obtain ⟨-, hfolder, hcaptured, hwritten⟩ := restoreAsset_ok_iff.mp hs₁
    obtain ⟨hlaid, hcaptured', hwritten'⟩ := ih (laid_created h hfolder) hrest
    refine ⟨?_, ?_, ?_⟩
    · rw [List.map_cons, List.reverse_cons, List.append_assoc]
      exact hlaid
    · rw [hcaptured', hcaptured]
      rfl
    · rw [hwritten', hwritten, List.length_cons]
      omega

theorem get?_recordOrigin (captured : List (String × String)) (entry : SampleEntry Hash)
    (origin : String) : get? (recordOrigin captured entry) origin =
      if entry.origin = some origin then some entry.path else get? captured origin := by
  unfold recordOrigin
  cases entry.origin with
  | none => simp
  | some origin' => simp [get?_insert, eq_comm]

theorem get?_capturedFrom (captured : List (String × String)) {origin path : String}
    (h : get? (capturedFrom assets captured) origin = some path) :
    get? captured origin = some path ∨
      ∃ asset ∈ assets, asset.1.origin = some origin ∧ asset.1.path = path := by
  induction assets generalizing captured with
  | nil => exact .inl h
  | cons asset rest ih =>
    rcases ih (recordOrigin captured asset.1) h with hfirst | ⟨asset', hasset', hpath⟩
    · rw [get?_recordOrigin] at hfirst
      split at hfirst
      · rename_i horigin
        exact .inr ⟨asset, List.mem_cons_self, horigin, Option.some.inj hfirst⟩
      · exact .inl hfirst
    · exact .inr ⟨asset', List.mem_cons_of_mem _ hasset', hpath⟩

theorem get?_capturedFrom_none (captured : List (String × String)) {origin : String} :
    get? (capturedFrom assets captured) origin = none ↔
      get? captured origin = none ∧ ∀ asset ∈ assets, asset.1.origin ≠ some origin := by
  induction assets generalizing captured with
  | nil => simp [capturedFrom]
  | cons asset rest ih =>
    rw [List.forall_mem_cons, ← and_assoc]
    refine (ih (recordOrigin captured asset.1)).trans (and_congr_left fun _ => ?_)
    rw [get?_recordOrigin]
    by_cases horigin : asset.1.origin = some origin
    · simp [horigin]
    · simp [horigin]

theorem assetPath_toNativeSeparators (path : String) :
    assetPath (toNativeSeparators path) = assetPath path := by
  have hsplit : ∀ text : List Char,
      (text.map fun c => if c = '/' then '\\' else c).splitOnP isAnySlash =
        text.splitOnP isAnySlash := by
    intro text
    induction text with
    | nil => rfl
    | cons c text ih =>
      rw [List.map_cons, List.splitOnP_cons_eq_if_modifyHead, List.splitOnP_cons_eq_if_modifyHead, ih]
      by_cases hc : c = '/'
      · subst hc
        rfl
      · rw [if_neg hc]
  rw [assetPath, segments, toNativeSeparators, String.toList_ofList, hsplit]
  rfl

/-- What can be read of a version. -/
structure Reads [DecidableEq Hash] (F : Formats (List UInt8) Hash) (C : Codecs (List UInt8) Hash)
    (answer : Answers (List UInt8) Hash) (commit : Commit Hash)
    (snapshot : ProjectSnapshot (List UInt8)) (manifest : SampleManifest Hash) (stream : Stream) :
    Prop where
  samples : ∃ bytes, answer (.getBlob commit.tree.samples) = .ok bytes ∧
    F.decodeManifest bytes = .ok manifest
  project : ∃ source, snapshot.restoreBytes F C = .ok source ∧ Stream.decode source = .ok stream

/-- The project that is written, and what is missing of it. -/
def restoredStream (home : Option String) (stream : Stream)
    (assets : List (SampleEntry Hash × List UInt8)) : Stream × RepointReport :=
  repoint home stream (capturedFrom assets [])

def projectPath (fileName : FileName) : List String := [fileName.name]

/-- The files that a restore is to make. -/
def madeFiles (home : Option String) (stream : Stream)
    (assets : List (SampleEntry Hash × List UInt8)) (fileName : FileName) :
    List (List String × List UInt8) :=
  assets.map assetFile ++ [(projectPath fileName, (restoredStream home stream assets).1.encode)]

structure RestoredProject (home : Option String) (stream : Stream)
    (assets : List (SampleEntry Hash × List UInt8)) (restoreRoot : HostPath) (fileName : FileName)
    (t : DirTree (List UInt8)) (result : RestoreResult) : Prop where
  holds : Laid (madeFiles home stream assets fileName).reverse [[]] (some t)
  /-- The project can be opened again as it was written, unless it has become too large. -/
  opens : Stream.decode (restoredStream home stream assets).1.encode =
      .ok (restoredStream home stream assets).1 ↔
    (restoredStream home stream assets).1.encode.length ≤ maxFlpBytes
  /-- Its sample paths lead to captured files, but for those that no file was given for. -/
  references : Representable home stream (capturedFrom assets []) →
    ∀ r ∈ collect home (restoredStream home stream assets).1,
      (∃ asset ∈ assets, (∃ r₀ ∈ collect home stream, asset.1.origin = some r₀.recordedPath) ∧
        treeAt (assetPath r.recordedPath) (some t) = some (.file asset.2)) ∨
      r ∈ collect home stream ∧ ∀ asset ∈ assets, asset.1.origin ≠ some r.recordedPath
  counted : result = ⟨restoreRoot.join (HostPath.ofText fileName.name), assets.length,
    (restoredStream home stream assets).2.stillMissing.length, 0, none⟩
  complete : result.unavailable = 0 ↔ ∀ r ∈ collect home stream, r.refClass.shouldVendor = true →
    ∃ asset ∈ assets, asset.1.origin = some r.recordedPath

theorem sized_repoint {stream : Stream} (h : ∀ event ∈ stream.events, event.Sized)
    (captured : List (String × String)) :
    ∀ event ∈ (repoint home stream captured).1.events, event.Sized := by
  rw [repoint_eq]
  intro event hevent
  obtain ⟨before, hbefore, rfl⟩ := List.mem_map.mp hevent
  unfold repointedEvent
  split
  · rename_i hid
    split
    · intro width hwidth
      dsimp only at hwidth
      rw [hid, show Event.fixedLen eventSamplePath = none by decide] at hwidth
      cases hwidth
    · exact h before hbefore
  · exact h before hbefore

/-- A repointed project is decoded as it is, up to the limit on its size. -/
theorem decode_repoint_iff {source : List UInt8} {stream : Stream}
    (h : Stream.decode source = .ok stream) (captured : List (String × String)) :
    Stream.decode (repoint home stream captured).1.encode = .ok (repoint home stream captured).1 ↔
      (repoint home stream captured).1.encode.length ≤ maxFlpBytes := by
  constructor
  · exact fun hdecode => (decode_ok_iff.mp hdecode).1
  · intro hsize
    obtain ⟨-, -, -, -, -, hcount⟩ := decode_ok_iff.mp h
    refine decode_ok_iff.mpr ⟨hsize, (repoint home stream captured).1.encodeBody, [], ?_, ?_, ?_⟩
    · rw [List.append_nil, Stream.encode_eq]
    · rw [Stream.encode_eq, List.length_append, List.length_append] at hsize
      refine written_encode (sized_repoint (sized_of_decode h) captured) ?_
      have hbody : (repoint home stream captured).1.encodeBody.length ≤ maxFlpBytes := by omega
      exact hbody
    · rw [repoint_eq, List.length_map]
      exact hcount

variable [DecidableEq Hash] {commit : Commit Hash} {snapshot : ProjectSnapshot (List UInt8)}
variable {restoreRoot : HostPath} {fileName : FileName} {t : DirTree (List UInt8)}
variable {result : RestoreResult} {manifest : SampleManifest Hash} {stream : Stream}

/-- The steps of a restore into an empty folder. -/
theorem restoreFl_ok_iff :
    (restoreFl F C home host commit snapshot restoreRoot (some (.folder [])) fileName).eval answer =
        .ok (t, result) ↔
      ∃ manifest stream s, Reads F C answer commit snapshot manifest stream ∧
        (given answer manifest.entries).foldlM (restoreAsset host) ⟨.folder [], [], 0⟩ = .ok s ∧
        create host (newFile (repoint home stream s.captured).1.encode) (projectPath fileName)
          s.folder = .ok t ∧
        result = ⟨restoreRoot.join (HostPath.ofText fileName.name), s.filesWritten,
          (repoint home stream s.captured).2.stillMissing.length, 0, none⟩ := by
  unfold restoreFl
  constructor
  · intro h
    obtain ⟨manifestBytes, hbytes, h⟩ := Prog.eval_bind_ok_iff.mp h
    obtain ⟨manifest, hmanifest, h⟩ := Prog.eval_bind_ok_iff.mp h
    obtain ⟨source, hsource, h⟩ := Prog.eval_bind_ok_iff.mp h
    obtain ⟨stream, hstream, h⟩ := Prog.eval_bind_ok_iff.mp h
    obtain ⟨t₀, ht₀, h⟩ := Prog.eval_bind_ok_iff.mp h
    obtain ⟨s, hs, h⟩ := Prog.eval_bind_ok_iff.mp h
    obtain ⟨t', ht', h⟩ := Prog.eval_bind_ok_iff.mp h
    rw [Prog.eval_ofExcept, wrapped_ok_iff] at hmanifest hsource hstream ht₀ ht'
    rw [eval_restoreAssets] at hs
    obtain ⟨rfl, rfl⟩ := Prod.mk.inj (Except.ok.inj h)
    obtain rfl : DirTree.folder [] = t₀ := Except.ok.inj ht₀
    exact ⟨manifest, stream, s, ⟨⟨manifestBytes, Prog.eval_run_ok_iff.mp hbytes, hmanifest⟩,
      ⟨source, hsource, hstream⟩⟩, hs, ht', rfl⟩
  · rintro ⟨manifest, stream, s, ⟨⟨manifestBytes, hbytes, hmanifest⟩, ⟨source, hsource, hstream⟩⟩, hs,
      ht, rfl⟩
    have hread : ∀ {α : Type} {what : String} {x : Except String α} {a : α}, x = .ok a →
        (Prog.ofExcept (AuruPm.wrapped what x) : AuruPm.Reading (List UInt8) Hash α).eval answer = .ok a :=
      fun hx => (Prog.eval_ofExcept _).trans (wrapped_ok_iff.mpr hx)
    have hfolder : createDestination host (some (.folder [])) =
        .ok (.folder ([] : List (String × DirTree (List UInt8)))) := rfl
    rw [Prog.eval_bind (Prog.eval_run_ok_iff.mpr hbytes), Prog.eval_bind (hread hmanifest),
      Prog.eval_bind (hread hsource), Prog.eval_bind (hread hstream), Prog.eval_bind (hread hfolder),
      Prog.eval_bind ((eval_restoreAssets _ _).trans hs)]
    exact Prog.eval_bind (hread ht)

/-- Two reads of one version are the same. -/
theorem Reads.unique {manifest' : SampleManifest Hash} {stream' : Stream}
    (h : Reads F C answer commit snapshot manifest stream)
    (h' : Reads F C answer commit snapshot manifest' stream') : manifest = manifest' ∧ stream = stream' := by
  obtain ⟨⟨bytes, hbytes, hmanifest⟩, ⟨source, hsource, hstream⟩⟩ := h
  obtain ⟨⟨bytes', hbytes', hmanifest'⟩, ⟨source', hsource', hstream'⟩⟩ := h'
  obtain rfl := Except.ok.inj (hbytes.symm.trans hbytes')
  obtain rfl := Except.ok.inj (hsource.symm.trans hsource')
  exact ⟨Except.ok.inj (hmanifest.symm.trans hmanifest'),
    Except.ok.inj (hstream.symm.trans hstream')⟩

/-- It ends well exactly when the version can be read, no path of a given file is refused, and all
files fit into the folder. -/
theorem restoreFl_restores_iff :
    (∃ restored, (restoreFl F C home host commit snapshot restoreRoot (some (.folder []))
        fileName).eval answer = .ok restored) ↔
      ∃ manifest stream, Reads F C answer commit snapshot manifest stream ∧
        (∀ asset ∈ given answer manifest.entries, Joinable asset.1.path) ∧
        Creatable host [] (madeFiles home stream (given answer manifest.entries) fileName) := by
  constructor
  · rintro ⟨⟨t, result⟩, hrestored⟩
    obtain ⟨manifest, stream, s, hreads, hs, ht, -⟩ := restoreFl_ok_iff.mp hrestored
    obtain ⟨hlaid, hcaptured, -⟩ := restoreAssets_spec laid_empty hs
    obtain ⟨hjoinable, hcreatable⟩ := (restoreAssets_ok_iff laid_empty).mp ⟨s, hs⟩
    refine ⟨manifest, stream, hreads, hjoinable, creatable_concat_iff.mpr ⟨hcreatable, ?_⟩⟩
    exact (exists_newFile_iff hlaid (List.cons_ne_nil _ _)).mp ⟨t, ht⟩
  · rintro ⟨manifest, stream, hreads, hjoinable, hcreatable⟩
    obtain ⟨hassets, hlast⟩ := creatable_concat_iff.mp hcreatable
    obtain ⟨s, hs⟩ := (restoreAssets_ok_iff (s := ⟨.folder [], [], 0⟩) laid_empty).mpr
      ⟨hjoinable, hassets⟩
    obtain ⟨hlaid, hcaptured, -⟩ := restoreAssets_spec laid_empty hs
    obtain ⟨t, ht⟩ := (exists_newFile_iff hlaid (List.cons_ne_nil _ _)).mpr hlast
    exact ⟨(t, _), restoreFl_ok_iff.mpr ⟨manifest, stream, s, hreads, hs, ht, rfl⟩⟩

/-- What it leaves then. -/
theorem restoreFl_restored (h : Reads F C answer commit snapshot manifest stream)
    (hrestored : (restoreFl F C home host commit snapshot restoreRoot (some (.folder []))
      fileName).eval answer = .ok (t, result)) :
    RestoredProject home stream (given answer manifest.entries) restoreRoot fileName t result := by
  obtain ⟨manifest', stream', s, hreads, hs, ht, rfl⟩ := restoreFl_ok_iff.mp hrestored
  obtain ⟨rfl, rfl⟩ := h.unique hreads
  obtain ⟨hlaid, hcaptured, hwritten⟩ := restoreAssets_spec laid_empty hs
  obtain ⟨source, -, hstream⟩ := h.project
  rw [hcaptured] at ht ⊢
  have hholds := laid_created hlaid ht
  have hfile : ∀ asset ∈ given answer manifest.entries,
      treeAt (assetPath asset.1.path) (some t) = some (.file asset.2) := fun asset hasset =>
    (hholds.file _ _).mpr (List.mem_cons_of_mem _ (List.mem_append_left _
      (List.mem_reverse.mpr (List.mem_map_of_mem hasset))))
  refine ⟨?_, decode_repoint_iff hstream _, fun hrepresentable r hr => ?_, ?_, ?_⟩
  · rw [madeFiles, List.reverse_append]
    rw [List.append_nil] at hholds
    exact hholds
  · rw [restoredStream, collect_repoint_iff.mpr hrepresentable] at hr
    obtain ⟨r₀, hr₀, rfl⟩ := List.mem_map.mp hr
    rw [repointedRef]
    cases hget : get? (capturedFrom (given answer manifest.entries) []) r₀.recordedPath with
    | none => exact .inr ⟨hr₀, ((get?_capturedFrom_none []).mp hget).2⟩
    | some destination =>
      obtain hnil | ⟨asset, hasset, horigin, rfl⟩ := get?_capturedFrom [] hget
      · cases hnil
      · refine .inl ⟨asset, hasset, ⟨r₀, hr₀, horigin⟩, ?_⟩
        dsimp only
        rw [assetPath_toNativeSeparators]
        exact hfile asset hasset
  · rw [hwritten, Nat.zero_add]
    rfl
  · rw [List.length_eq_zero_iff, List.eq_nil_iff_forall_not_mem]
    constructor
    · intro hnone r hr hclass
      by_contra hmissing
      refine hnone r.recordedPath (stillMissing_repoint.2 _ |>.mpr ⟨r, hr, rfl, ?_, hclass⟩)
      refine (get?_capturedFrom_none []).mpr ⟨rfl, fun asset hasset horigin => ?_⟩
      exact hmissing ⟨asset, hasset, horigin⟩
    · intro hall path hpath
      obtain ⟨r, hr, rfl, hget, hclass⟩ := (stillMissing_repoint.2 _).mp hpath
      obtain ⟨asset, hasset, horigin⟩ := hall r hr hclass
      exact ((get?_capturedFrom_none []).mp hget).2 asset hasset horigin

end Restored

end FlStudio

end AuruPm
