import AuruPm.StashRecovery

/-!
# DAWprojects before a merge

A merge gets its documents in version two: the bytes that a version-one document has inline are
stored, and their hashes and sizes take their place. A document in version two stays as it is.
-/

namespace AuruPm

set_option autoImplicit false

open SortedAssoc Threads

variable {Client Bytes Hash : Type} {F : Formats Bytes Hash} {C : Codecs Bytes Hash}

/-! The wrapper. -/

/-- A wrapper object marked as of version two. -/
def markedFields (fields : List (String × Value)) : List (String × Value) :=
  SortedAssoc.insert "auru_pm_snapshot" (.number (.posInt 2)) fields

theorem readPortable_resources {fields : List (String × Value)} {p : PortableSnapshot Hash}
    {elems : List Value} {rs : List (ArchiveResource Hash)}
    (h : readPortable C (.object fields) = some p)
    (hrs : List.Forall₂ (fun v r => readResource C v = some r) elems rs) :
    readPortable C (.object (SortedAssoc.insert "resources" (.array elems) fields)) =
      some { p with resources := rs } := by
  obtain ⟨hversion, hformat, hproject, hmetadata, -⟩ := readPortable_object_iff.mp h
  rw [readPortable_object_iff]
  simp only [get?_insert, String.reduceEq, reduceIte, hversion, hformat, hproject, hmetadata]
  exact ⟨trivial, trivial, trivial, trivial, mapM_some_iff.mpr hrs⟩

theorem readPortable_marked {fields : List (String × Value)} {p : PortableSnapshot Hash}
    (h : readPortable C (.object fields) = some p) :
    readPortable C (.object (markedFields fields)) = some { p with auruPmSnapshot := 2 } := by
  obtain ⟨-, hformat, hproject, hmetadata, hresources⟩ := readPortable_object_iff.mp h
  rw [readPortable_object_iff]
  simp only [markedFields, get?_insert, String.reduceEq, reduceIte, hformat, hproject, hmetadata,
    hresources]
  exact ⟨rfl, trivial, trivial, trivial, trivial⟩

theorem snapshotFormat_marked {fields : List (String × Value)} {p : PortableSnapshot Hash}
    (hformat : (get? fields "format").bind readFormat = some .dawproject)
    (hp : readPortable C (.object (markedFields fields)) = some p) (hvalid : p.validate C = .ok ()) :
    snapshotFormat C (.object (markedFields fields)) = .ok .dawproject := by
  obtain ⟨format, hfield, hread⟩ := Option.bind_eq_some_iff.mp hformat
  have hmarker : portableSnapshotFormat (.object (markedFields fields)) = .ok (some .dawproject) := by
    simp only [portableSnapshotFormat, Value.get, markedFields, get?_insert, String.reduceEq,
      reduceIte, hfield, hread, Value.asU64, serdeResult]
    rfl
  simp only [snapshotFormat, hmarker, hp, serdeResult]
  rw [bind_ok_iff]
  refine ⟨some .dawproject, rfl, ?_⟩
  simp only [Option.getD_some, reduceCtorEq, if_false, ne_eq, not_false_eq_true, if_true]
  exact bind_ok_iff.mpr ⟨p, rfl, bind_ok_iff.mpr ⟨(), hvalid, rfl⟩⟩

/-- An entry that is there already stays where it is. -/
theorem insert_of_get? {m : List (String × Value)} (hm : Sorted m) {k : String} {v : Value}
    (h : get? m k = some v) : SortedAssoc.insert k v m = m := by
  apply SortedAssoc.ext (sorted_insert hm k v) hm
  intro k'
  rw [get?_insert]
  split
  · rename_i hk
    rw [hk, h]
  · rfl

theorem marked_of_two {fields : List (String × Value)} (hsorted : Sorted fields)
    (h : (get? fields "auru_pm_snapshot").bind readU32 = some 2) : markedFields fields = fields := by
  obtain ⟨marker, hmarker, hread⟩ := Option.bind_eq_some_iff.mp h
  apply insert_of_get? hsorted
  rw [hmarker]
  obtain ⟨n, hn, hword⟩ := Option.bind_eq_some_iff.mp hread
  split at hword
  · cases marker with
    | number number =>
      cases number with
      | posInt m =>
        cases hn
        have htwo : n = 2 := UInt64.toNat_inj.mp (Option.some.inj hword)
        rw [htwo]
      | negInt _ => cases hn
      | float _ => cases hn
    | _ => cases hn
  · cases hword

/-! One resource. -/

/-- What the descriptor of a resource says of the bytes that were inline. -/
def Detaches (F : Formats Bytes Hash) (C : Codecs Bytes Hash) (r r' : ArchiveResource Hash)
    (bytes : Bytes) : Prop :=
  (∃ encoded, r.data = some encoded ∧ C.base64Decode encoded = .ok bytes) ∧
    r' = ⟨r.id, none, some (F.contentHash bytes), some (F.byteLength bytes)⟩

/-- Inline bytes have a hash that is read back from its text, and a length that fits in a number. -/
structure DescribesBlobs (F : Formats Bytes Hash) (C : Codecs Bytes Hash) : Prop where
  hash : ∀ encoded bytes, C.base64Decode encoded = .ok bytes →
    C.parseHash (F.hashText (F.contentHash bytes)) = some (F.contentHash bytes)
  size : ∀ encoded bytes, C.base64Decode encoded = .ok bytes → F.byteLength bytes < 2 ^ 64

/-- Reading and detaching an inline resource. -/
theorem detachResource_inline (hC : DescribesBlobs F C) {v v' : Value} {r : ArchiveResource Hash}
    (hr : readResource C v = some r) (hdata : r.data.isSome = true)
    {parsed : SnapshotResource Bytes Hash} (hparsed : snapshotResource F C v = .ok parsed)
    {blob : Option (String × Hash × Bytes)}
    (h : Push.detachResource F v parsed = .ok (v', blob)) :
    ∃ r' bytes, readResource C v' = some r' ∧ Detaches F C r r' bytes ∧
      blob = some (r.id, F.contentHash bytes, bytes) ∧ ∃ fields, v' = .object fields := by
  cases v with
  | object fields =>
    obtain ⟨hid, hd, -, -⟩ := readResource_object_iff.mp hr
    obtain ⟨encoded, hencoded⟩ := Option.isSome_iff_exists.mp hdata
    rw [hencoded] at hd
    obtain ⟨dataValue, hfield, -, hstr⟩ := readOption_some_iff.mp hd
    simp only [snapshotResource, Value.get, hid] at hparsed
    obtain ⟨inline, hinline, hparsed⟩ := bind_ok_iff.mp hparsed
    obtain ⟨_, -, hparsed⟩ := bind_ok_iff.mp hparsed
    obtain ⟨_, -, hparsed⟩ := bind_ok_iff.mp hparsed
    cases hparsed
    simp only [inlineData, Value.get, hfield, Option.bind_some, hstr] at hinline
    split at hinline
    · rename_i bytes hbytes
      cases hinline
      simp only [Push.detachResource, hid, ne_eq, not_true_eq_false, if_false] at h
      cases h
      refine ⟨_, bytes, ?_, ⟨⟨encoded, hencoded, hbytes⟩, rfl⟩, rfl, _, rfl⟩
      have hsize : readU64 (.number (.posInt (UInt64.ofNat (F.byteLength bytes)))) =
          some (F.byteLength bytes) := by
        rw [readU64, Value.asU64, Option.map_some, UInt64.toNat_ofNat_of_lt' (hC.size encoded bytes hbytes)]
      rw [readResource_object_iff]
      simp only [get?_erase, get?_insert, String.reduceEq, reduceIte, hid]
      refine ⟨trivial, rfl, ?_, ?_⟩
      · exact readOption_some_iff.mpr ⟨_, rfl, (fun h => by cases h), hC.hash encoded bytes hbytes⟩
      · exact readOption_some_iff.mpr ⟨_, rfl, (fun h => by cases h), hsize⟩
    · cases hinline
  | _ => cases hparsed

/-- A resource that is detached already stays as it is. -/
theorem detachResource_detached {fields : List (String × Value)} {r : ArchiveResource Hash}
    {hash : Hash} {size : Nat} (hr : readResource C (.object fields) = some r)
    (hdata : r.data = none) (hhash : r.hash = some hash) (hsize : r.size = some size) :
    ∃ parsed, snapshotResource F C (.object fields) = .ok parsed ∧
      Push.detachResource F (.object fields) parsed = .ok (.object fields, none) := by
  obtain ⟨hid, hd, hh, hs⟩ := readResource_object_iff.mp hr
  rw [hdata] at hd
  rw [hhash] at hh
  rw [hsize] at hs
  obtain ⟨hashValue, hfield, -, hread⟩ := readOption_some_iff.mp hh
  obtain ⟨sizeValue, hfield', -, hread'⟩ := readOption_some_iff.mp hs
  have hnone : (get? fields "data").bind Value.asStr = none := by
    rcases readOption_none_iff.mp hd with h | h
    · rw [h]
      rfl
    · rw [h]
      rfl
  refine ⟨⟨r.id, hash, size, classify r.id, none⟩, ?_, ?_⟩
  · simp only [snapshotResource, Value.get, hid, inlineData, hnone, resourceHash, hfield,
      serdeResult, hread, resourceSize, hfield', Option.bind_some, hread', Option.some_or]
    rfl
  · simp only [Push.detachResource, hid, ne_eq, not_true_eq_false, if_false]

/-! All resources. -/

/-- Reading and detaching the resources of a version-one document. -/
theorem detachResources_inline (hC : DescribesBlobs F C) {elems elems' : List Value}
    {rs : List (ArchiveResource Hash)}
    (hrs : List.Forall₂ (fun v r => readResource C v = some r) elems rs)
    (hdata : ∀ r ∈ rs, r.data.isSome = true) {parsed : List (SnapshotResource Bytes Hash)}
    (hparsed : List.Forall₂ (fun v d => snapshotResource F C v = .ok d) elems parsed)
    {blobs : List (String × Hash × Bytes)}
    (h : Push.detachResources F elems parsed = .ok (elems', blobs)) :
    ∃ rs', List.Forall₂ (fun v r => readResource C v = some r) elems' rs' ∧
      List.Forall₂ (fun r r' => ∃ bytes, Detaches F C r r' bytes ∧
        (r.id, F.contentHash bytes, bytes) ∈ blobs) rs rs' ∧
      (∀ v ∈ elems', ∃ fields, v = .object fields) := by
  induction hrs generalizing parsed elems' blobs with
  | nil =>
    cases hparsed
    cases h
    exact ⟨[], .nil, .nil, nofun⟩
  | cons hr hrest ih =>
    cases hparsed with
    | cons hd hmore =>
      obtain ⟨⟨v', blob⟩, hhead, h⟩ := bind_ok_iff.mp h
      obtain ⟨⟨rest', restBlobs⟩, htail, h⟩ := bind_ok_iff.mp h
      cases h
      obtain ⟨r', bytes, hr', hdetaches, rfl, hobject⟩ :=
        detachResource_inline hC hr (hdata _ List.mem_cons_self) hd hhead
      obtain ⟨rs', hrs', hall, hobjects⟩ :=
        ih (fun r hr => hdata r (List.mem_cons_of_mem _ hr)) hmore htail
      refine ⟨r' :: rs', .cons hr' hrs', .cons ⟨bytes, hdetaches, List.mem_cons_self⟩ ?_, ?_⟩
      · apply hall.imp
        intro r r' ⟨bytes, hbytes, hmem⟩
        exact ⟨bytes, hbytes, List.mem_cons_of_mem _ hmem⟩
      · intro v hv
        rcases List.mem_cons.mp hv with rfl | hv
        · exact hobject
        · exact hobjects v hv

/-- What a version-two resource has. -/
def IsDetached (r : ArchiveResource Hash) : Prop :=
  r.data = none ∧ r.hash.isSome = true ∧ r.size.isSome = true

/-- The resources of a version-two document stay as they are. -/
theorem detachResources_detached {elems : List Value} {rs : List (ArchiveResource Hash)}
    (hrs : List.Forall₂ (fun v r => readResource C v = some r) elems rs)
    (hdetached : ∀ r ∈ rs, IsDetached r) (hobjects : ∀ v ∈ elems, ∃ fields, v = .object fields) :
    ∃ parsed, List.Forall₂ (fun v d => snapshotResource F C v = .ok d) elems parsed ∧
      Push.detachResources F elems parsed = .ok (elems, []) := by
  induction hrs with
  | nil => exact ⟨[], .nil, rfl⟩
  | @cons v r elems rs hr hrest ih =>
    obtain ⟨parsed, hparsed, hdetach⟩ := ih (fun r hr => hdetached r (List.mem_cons_of_mem _ hr))
      fun v hv => hobjects v (List.mem_cons_of_mem _ hv)
    obtain ⟨fields, rfl⟩ := hobjects v List.mem_cons_self
    obtain ⟨hdata, hhash, hsize⟩ := hdetached r List.mem_cons_self
    obtain ⟨hash, hhash⟩ := Option.isSome_iff_exists.mp hhash
    obtain ⟨size, hsize⟩ := Option.isSome_iff_exists.mp hsize
    obtain ⟨d, hd, hkept⟩ := detachResource_detached (F := F) hr hdata hhash hsize
    refine ⟨d :: parsed, .cons hd hparsed, ?_⟩
    exact bind_ok_iff.mpr ⟨_, hkept, bind_ok_iff.mpr ⟨_, hdetach, rfl⟩⟩

/-! The document. -/

section Document
variable {problems : Value → List IntegrityProblem} {info : Value → Option Bytes}

/-- The fields with detached resources, and the bytes that were inline. -/
def detachedFields (F : Formats Bytes Hash) (fields : List (String × Value))
    (parsed : List (SnapshotResource Bytes Hash)) :
    Except String (List (String × Value) × List (String × Hash × Bytes)) :=
  if parsed.isEmpty then .ok (fields, [])
  else
    match (get? fields "resources").bind Value.asArray with
    | none => .error "DAWproject merge snapshot is missing its resources"
    | some resources =>
      if resources.length ≠ parsed.length then
        .error "DAWproject merge resource count changed while normalizing"
      else
        (Push.detachResources F resources parsed).map fun (resources, blobs) =>
          (SortedAssoc.insert "resources" (.array resources) fields, blobs)

/-- A document that the fields do not show to be a DAWproject is left alone. -/
theorem normalized_hidden {fields : List (String × Value)}
    (h : (snapshotParts (.object fields)).isNone = true) :
    Push.normalized F (kernelReaders F C problems info) (.object fields) =
      .ok (.object fields, []) := by
  have hparts : (kernelReaders F C problems info).isDawproject (.object fields) = false := by
    simpa [kernelReaders] using h
  rw [Push.normalized, hparts]
  rfl

theorem normalized_eq {fields : List (String × Value)}
    (h : (snapshotParts (.object fields)).isSome = true) :
    Push.normalized F (kernelReaders F C problems info) (.object fields) =
      (wrapped "read DAWproject merge resources" (snapshotResources F C (.object fields)) >>=
        fun parsed => detachedFields F fields parsed >>= fun (fields', blobs) =>
          (wrapped "validate normalized DAWproject merge snapshot"
            ((kernelReaders F C problems info).canonicalBytes
              (F.encodeValue (.object (markedFields fields'))))).map
                fun _ => (.object (markedFields fields'), blobs)) := by
  have hdaw : (kernelReaders F C problems info).isDawproject (.object fields) = true := h
  have hresources : (kernelReaders F C problems info).resources (.object fields) =
      snapshotResources F C (.object fields) := rfl
  simp only [Push.normalized, hdaw, hresources, Bool.not_true, Bool.false_eq_true, if_false]
  apply bind_congr
  intro parsed
  have hend : ∀ pair : List (String × Value) × List (String × Hash × Bytes),
      (do
        let _ ← wrapped "validate normalized DAWproject merge snapshot"
          ((kernelReaders F C problems info).canonicalBytes
            (F.encodeValue (.object (markedFields pair.1))))
        pure (Value.object (markedFields pair.1), pair.2)) =
      (wrapped "validate normalized DAWproject merge snapshot"
        ((kernelReaders F C problems info).canonicalBytes
          (F.encodeValue (.object (markedFields pair.1))))).map
            fun _ => (.object (markedFields pair.1), pair.2) := by
    intro pair
    cases wrapped "validate normalized DAWproject merge snapshot"
      ((kernelReaders F C problems info).canonicalBytes
        (F.encodeValue (.object (markedFields pair.1)))) <;> rfl
  unfold detachedFields
  cases hempty : parsed.isEmpty with
  | true =>
    simp only [if_true]
    exact hend (fields, [])
  | false =>
    simp only [Bool.false_eq_true, if_false]
    cases harray : (get? fields "resources").bind Value.asArray with
    | none => rfl
    | some elems =>
      simp only
      by_cases hlength : elems.length = parsed.length
      · simp only [hlength, ne_eq, not_true_eq_false, if_false]
        cases hdetach : Push.detachResources F elems parsed with
        | error e => rfl
        | ok pair => exact hend (SortedAssoc.insert "resources" (.array pair.1) fields, pair.2)
      · simp only [hlength, ne_eq, not_false_eq_true, if_true]
        rfl

/-- How a document comes out. -/
theorem normalized_ok {fields : List (String × Value)}
    (hparts : (snapshotParts (.object fields)).isSome = true) {v' : Value}
    {blobs : List (String × Hash × Bytes)}
    (h : Push.normalized F (kernelReaders F C problems info) (.object fields) = .ok (v', blobs)) :
    ∃ fields' parsed canonical, v' = .object (markedFields fields') ∧
      snapshotResources F C (.object fields) = .ok parsed ∧
      (kernelReaders F C problems info).canonicalBytes (F.encodeValue v') = .ok canonical ∧
      ((parsed = [] ∧ fields' = fields ∧ blobs = []) ∨
        ∃ elems elems', get? fields "resources" = some (.array elems) ∧
          Push.detachResources F elems parsed = .ok (elems', blobs) ∧
          fields' = SortedAssoc.insert "resources" (.array elems') fields) := by
  rw [normalized_eq hparts] at h
  obtain ⟨parsed, hparsed, h⟩ := bind_ok_iff.mp h
  obtain ⟨⟨fields', blobs'⟩, hfields, h⟩ := bind_ok_iff.mp h
  obtain ⟨canonical, hcanonical, hpair⟩ := map_ok_iff.mp h
  cases hpair
  refine ⟨fields', parsed, canonical, rfl, wrapped_ok hparsed, wrapped_ok hcanonical, ?_⟩
  unfold detachedFields at hfields
  split at hfields
  · rename_i hempty
    cases hfields
    exact .inl ⟨List.isEmpty_iff.mp hempty, rfl, rfl⟩
  · split at hfields
    · cases hfields
    · rename_i elems helems
      split at hfields
      · cases hfields
      · obtain ⟨⟨elems', blobs''⟩, hdetach, hpair⟩ := map_ok_iff.mp hfields
        cases hpair
        obtain ⟨array, hfield, harray⟩ := Option.bind_eq_some_iff.mp helems
        cases array with
        | array elems =>
          cases harray
          exact .inr ⟨elems, elems', hfield, hdetach, rfl⟩
        | _ => cases harray

/-- The resources of a wrapper, one by one. -/
theorem resources_cases {fields : List (String × Value)} {p : PortableSnapshot Hash}
    (hp : readPortable C (.object fields) = some p) :
    (get? fields "resources" = none ∧ p.resources = []) ∨
      ∃ elems, get? fields "resources" = some (.array elems) ∧
        List.Forall₂ (fun v r => readResource C v = some r) elems p.resources := by
  obtain ⟨-, -, -, -, hread⟩ := readPortable_object_iff.mp hp
  cases hfield : get? fields "resources" with
  | none =>
    rw [hfield] at hread
    exact .inl ⟨rfl, (Option.some.inj hread).symm⟩
  | some array =>
    rw [hfield] at hread
    cases array with
    | array elems => exact .inr ⟨elems, rfl, mapM_some_iff.mp hread⟩
    | _ => cases hread

theorem snapshotResources_ok_iff {fields : List (String × Value)}
    (hparts : (snapshotParts (.object fields)).isSome = true)
    {parsed : List (SnapshotResource Bytes Hash)} :
    snapshotResources F C (.object fields) = .ok parsed ↔
      List.Forall₂ (fun v d => snapshotResource F C v = .ok d)
        (((get? fields "resources").bind Value.asArray).getD []) parsed := by
  have hnone : ¬ (snapshotParts (.object fields)).isNone = true := by
    rw [Option.isNone_iff_eq_none]
    intro hnone
    rw [hnone] at hparts
    cases hparts
  rw [snapshotResources, if_neg hnone]
  exact mapM_ok_iff

/-- A version-two document whose resources are objects is only checked. -/
theorem normalized_two {fields : List (String × Value)} {p : PortableSnapshot Hash}
    (hsorted : Sorted fields) (hp : readPortable C (.object fields) = some p)
    (hversion : p.auruPmSnapshot = 2) (hdetached : ∀ r ∈ p.resources, IsDetached r)
    (hparts : (snapshotParts (.object fields)).isSome = true)
    (hobjects : ∀ elems, get? fields "resources" = some (.array elems) →
      ∀ v ∈ elems, ∃ fields, v = .object fields) :
    Push.normalized F (kernelReaders F C problems info) (.object fields) =
      (wrapped "validate normalized DAWproject merge snapshot"
        ((kernelReaders F C problems info).canonicalBytes
          (F.encodeValue (.object fields)))).map fun _ => (.object fields, []) := by
  obtain ⟨hmarker, -, -, -, -⟩ := readPortable_object_iff.mp hp
  rw [hversion] at hmarker
  have hmarked := marked_of_two hsorted hmarker
  obtain ⟨parsed, hparsed, hfields⟩ : ∃ parsed, snapshotResources F C (.object fields) = .ok parsed ∧
      detachedFields F fields parsed = .ok (fields, []) := by
    rcases resources_cases hp with ⟨hfield, -⟩ | ⟨elems, hfield, hrs⟩
    · refine ⟨[], ?_, rfl⟩
      rw [snapshotResources_ok_iff hparts, hfield]
      exact .nil
    · obtain ⟨parsed, hforall, hdetach⟩ :=
        detachResources_detached (F := F) hrs hdetached (hobjects elems hfield)
      refine ⟨parsed, ?_, ?_⟩
      · rw [snapshotResources_ok_iff hparts, hfield]
        exact hforall
      · unfold detachedFields
        split
        · rfl
        · simp only [hfield, Option.bind_some, Value.asArray, hforall.length_eq, ne_eq,
            not_true_eq_false, if_false, hdetach]
          rw [Except.map, insert_of_get? hsorted hfield]
  rw [normalized_eq hparts, hparsed]
  simp only [wrapped, bind, Except.bind, hfields, hmarked]

theorem object_of_snapshotResource {v : Value} {d : SnapshotResource Bytes Hash}
    (h : snapshotResource F C v = .ok d) : ∃ fields, v = .object fields := by
  cases v with
  | object fields => exact ⟨fields, rfl⟩
  | _ => cases h

theorem validate_detached {p : PortableSnapshot Hash} (h : p.validate C = .ok ())
    {rs : List (ArchiveResource Hash)}
    (hids : rs.map ArchiveResource.id = p.resources.map ArchiveResource.id)
    (hdetached : ∀ r ∈ rs, IsDetached r) :
    ({ p with auruPmSnapshot := 2, resources := rs } : PortableSnapshot Hash).validate C = .ok () := by
  obtain ⟨-, hformat, hproject, hmetadata, hresources⟩ := PortableSnapshot.validate_ok_iff.mp h
  obtain ⟨hall, hnodup⟩ := validateResources_ok_iff.mp hresources
  refine PortableSnapshot.validate_ok_iff.mpr
    ⟨⟨Nat.le_succ 1, Nat.le_refl 2⟩, hformat, hproject, hmetadata, ?_⟩
  refine validateResources_ok_iff.mpr ⟨?_, hids ▸ hnodup⟩
  intro r hr
  have hmem : r.id ∈ p.resources.map ArchiveResource.id := hids ▸ List.mem_map_of_mem hr
  obtain ⟨r₀, hr₀, hid⟩ := List.mem_map.mp hmem
  exact ⟨hid ▸ (hall r₀ hr₀).1, List.not_mem_nil,
    ArchiveResource.validate_two_iff.mpr (hdetached r hr)⟩

/-- What a version-one document becomes. -/
theorem normalized_one (hC : DescribesBlobs F C) {fields : List (String × Value)}
    {p : PortableSnapshot Hash} (hsorted : Sorted fields)
    (hp : readPortable C (.object fields) = some p)
    (hdata : ∀ r ∈ p.resources, r.data.isSome = true)
    (hparts : (snapshotParts (.object fields)).isSome = true) {v' : Value}
    {blobs : List (String × Hash × Bytes)}
    (h : Push.normalized F (kernelReaders F C problems info) (.object fields) = .ok (v', blobs)) :
    ∃ fields' rs canonical, v' = .object (markedFields fields') ∧ Sorted fields' ∧
      (∀ key, key ≠ "resources" → get? fields' key = get? fields key) ∧
      readPortable C (.object fields') = some { p with resources := rs } ∧
      List.Forall₂ (fun r r' => ∃ bytes, Detaches F C r r' bytes ∧
        (r.id, F.contentHash bytes, bytes) ∈ blobs) p.resources rs ∧
      (∀ elems, get? fields' "resources" = some (.array elems) →
        ∀ v ∈ elems, ∃ fields, v = .object fields) ∧
      (kernelReaders F C problems info).canonicalBytes (F.encodeValue v') = .ok canonical := by
  obtain ⟨fields', parsed, canonical, rfl, hparsed, hcheck, hcases⟩ := normalized_ok hparts h
  rw [snapshotResources_ok_iff hparts] at hparsed
  rcases hcases with ⟨rfl, rfl, rfl⟩ | ⟨elems, elems', hfield, hdetach, rfl⟩
  · have hnone : p.resources = [] ∧ ∀ elems, get? fields' "resources" = some (.array elems) →
        elems = [] := by
      rcases resources_cases hp with ⟨hfield, hempty⟩ | ⟨elems, hfield, hrs⟩
      · refine ⟨hempty, fun elems helems => ?_⟩
        rw [hfield] at helems
        cases helems
      · rw [hfield] at hparsed
        have hnil : elems = [] := List.forall₂_nil_right_iff.mp hparsed
        rw [hnil] at hrs
        refine ⟨List.forall₂_nil_left_iff.mp hrs, fun elems' helems => ?_⟩
        rw [hfield] at helems
        cases helems
        exact hnil
    refine ⟨fields', [], canonical, rfl, hsorted, fun _ _ => rfl, ?_, ?_, ?_, hcheck⟩
    · rw [hp, ← hnone.1]
    · rw [hnone.1]
      exact .nil
    · intro elems helems v hv
      rw [hnone.2 elems helems] at hv
      cases hv
  · rw [hfield] at hparsed
    rcases resources_cases hp with ⟨hfield', -⟩ | ⟨elems₁, hfield', hrs⟩
    · rw [hfield] at hfield'
      cases hfield'
    · rw [hfield] at hfield'
      cases hfield'
      obtain ⟨rs, hrs', hdetaches, hobjects⟩ :=
        detachResources_inline hC hrs hdata hparsed hdetach
      refine ⟨_, rs, canonical, rfl, sorted_insert hsorted _ _, ?_, readPortable_resources hp hrs',
        hdetaches, ?_, hcheck⟩
      · intro key hkey
        rw [get?_insert, if_neg hkey]
      · intro elems helems
        rw [get?_insert, if_pos rfl] at helems
        cases helems
        exact hobjects

theorem shown_of_metadata {fields : List (String × Value)} {p : PortableSnapshot Hash}
    (hp : readPortable C (.object fields) = some p) (hdaw : p.format = .dawproject)
    (hmetadata : get? fields "metadata" ≠ some .null) :
    (snapshotParts (.object fields)).isSome = true := by
  rw [Option.isSome_iff_ne_none, ne_eq, ← Option.isNone_iff_eq_none,
    snapshotParts_isNone_iff hp hdaw]
  exact hmetadata

/-- What comes out means the same: the document is valid in version two with the same trees and
resources, and the bytes that were inline are stored. -/
structure Carries [DecidableEq Client] [DecidableEq Hash] (F : Formats Bytes Hash)
    (C : Codecs Bytes Hash) (problems : Value → List IntegrityProblem) (info : Value → Option Bytes)
    (v : Value) (p : PortableSnapshot Hash) (v' : Value) (s : Shared Client Bytes Hash) : Prop where
  valid : snapshotFormat C v' = .ok .dawproject
  wrapper : ∃ rs, readPortable C v' = some { p with auruPmSnapshot := 2, resources := rs } ∧
    rs.map ArchiveResource.id = p.resources.map ArchiveResource.id ∧
    (p.auruPmSnapshot = 1 → List.Forall₂ (fun r r' => ∃ bytes, Detaches F C r r' bytes ∧
      s.provider.blobs.get F {} (F.contentHash bytes) = .ok bytes) p.resources rs)
  two : p.auruPmSnapshot = 2 → v' = v
  again : Push.normalizeForMerge F (kernelReaders F C problems info) v' = pure v'

/-- All blobs of a document are stored. -/
def BlobsStored [DecidableEq Hash] (F : Formats Bytes Hash) (blobs : List (String × Hash × Bytes))
    (s : Shared Client Bytes Hash) : Prop :=
  ∀ blob ∈ blobs, s.provider.blobs.get F {} blob.2.1 = .ok blob.2.2

section Storing
variable [DecidableEq Client] [DecidableEq Hash] {push : Nat}
variable {request : PushRequest Client Bytes Hash}

theorem among_storeLegacy (hF : F.Lawful) (blobs : List (String × Hash × Bytes))
    {s : Shared Client Bytes Hash} (hs : s.provider.Healthy F) :
    Among F push request (onOk fun _ s' => BlobsStored F blobs s' ∧ Aside F request.client s s')
      (Push.storeLegacy blobs) s := by
  induction blobs generalizing s with
  | nil => exact Meets.pure_ok fun s' h => ⟨nofun, h⟩
  | cons blob rest ih =>
    obtain ⟨path, hash, bytes⟩ := blob
    refine Meets.run_bind_ok (fun _ _ => trivial) fun s₁ _ s₂ h₁ hstep => ?_
    have h₂ : Aside F request.client s₁ s₂ := aside_of_step hF hstep (Or.inl trivial)
    refine (ih (h₂.healthy (h₁.healthy hs))).weaken_ok fun _ s₃ ⟨hrest, h₃⟩ => ?_
    refine ⟨?_, (h₁.trans h₂).trans h₃⟩
    intro blob hblob
    rcases List.mem_cons.mp hblob with rfl | hblob
    · apply h₃.keeps
      cases hstep with
      | answered clock hp =>
        obtain ⟨p, hput, heq⟩ := map_ok_iff.mp hp
        cases heq
        obtain ⟨blobs, hblobs, rfl⟩ := map_ok_iff.mp hput
        exact Cas.get_put_self hF (h₁.healthy hs) hblobs
    · exact hrest blob hblob

omit [DecidableEq Hash] in
theorem normalizeForMerge_eq {v v' : Value}
    (h : Push.normalized F (kernelReaders F C problems info) v = .ok (v', [])) :
    Push.normalizeForMerge F (kernelReaders F C problems info) v = pure v' := by
  rw [Push.normalizeForMerge, h]
  rfl

/-- A version-two document comes out as it is. -/
theorem carries_two {fields : List (String × Value)} {p : PortableSnapshot Hash}
    (hsorted : Sorted fields) (hformat : snapshotFormat C (.object fields) = .ok .dawproject)
    (hp : readPortable C (.object fields) = some p) (hversion : p.auruPmSnapshot = 2)
    (hdetached : ∀ r ∈ p.resources, IsDetached r) {v' : Value}
    {blobs : List (String × Hash × Bytes)}
    (h : Push.normalized F (kernelReaders F C problems info) (.object fields) = .ok (v', blobs))
    (s : Shared Client Bytes Hash) :
    Carries F C problems info (.object fields) p v' s := by
  have hsame : v' = .object fields ∧ blobs = [] := by
    cases hparts : (snapshotParts (.object fields)).isSome with
    | false =>
      rw [normalized_hidden (by simpa using hparts)] at h
      cases h
      exact ⟨rfl, rfl⟩
    | true =>
      obtain ⟨_, parsed, _, _, hparsed, _, _⟩ := normalized_ok hparts h
      rw [snapshotResources_ok_iff hparts] at hparsed
      have hobjects : ∀ elems, get? fields "resources" = some (.array elems) →
          ∀ v ∈ elems, ∃ fields, v = .object fields := by
        intro elems hfield v hv
        rw [hfield] at hparsed
        obtain ⟨d, _, hd⟩ := exists_right_of_forall₂ hparsed hv
        exact object_of_snapshotResource hd
      rw [normalized_two hsorted hp hversion hdetached hparts hobjects] at h
      obtain ⟨_, _, hpair⟩ := map_ok_iff.mp h
      cases hpair
      exact ⟨rfl, rfl⟩
  obtain ⟨rfl, rfl⟩ := hsame
  have hself : { p with auruPmSnapshot := 2, resources := p.resources } = p := by
    rw [← hversion]
  refine ⟨hformat, ⟨p.resources, by rw [hp, hself], rfl, ?_⟩, fun _ => rfl, normalizeForMerge_eq h⟩
  intro hone
  rw [hone] at hversion
  cases hversion

/-- A version-one document whose parts are found comes out in version two. -/
theorem carries_one (hC : DescribesBlobs F C) {fields : List (String × Value)}
    {p : PortableSnapshot Hash} (hsorted : Sorted fields)
    (hformat : (get? fields "format").bind readFormat = some .dawproject)
    (hp : readPortable C (.object fields) = some p) (hvalid : p.validate C = .ok ())
    (hversion : p.auruPmSnapshot = 1) (hdata : ∀ r ∈ p.resources, r.data.isSome = true)
    (hmetadata : get? fields "metadata" ≠ some .null) {v' : Value}
    {blobs : List (String × Hash × Bytes)}
    (h : Push.normalized F (kernelReaders F C problems info) (.object fields) = .ok (v', blobs))
    {s : Shared Client Bytes Hash} (hstored : BlobsStored F blobs s) :
    Carries F C problems info (.object fields) p v' s := by
  obtain ⟨-, hdaw, -, -, -⟩ := readPortable_object_iff.mp hp
  rw [hformat] at hdaw
  have hdaw : p.format = .dawproject := (Option.some.inj hdaw).symm
  obtain ⟨fields', rs, canonical, rfl, hsorted', hkeys, hread, hdetaches, hobjects, hcheck⟩ :=
    normalized_one hC hsorted hp hdata (shown_of_metadata hp hdaw hmetadata) h
  have hp' := readPortable_marked hread
  have hids : rs.map ArchiveResource.id = p.resources.map ArchiveResource.id := by
    have hboth : List.Forall₂ (fun r r' => r'.id = r.id) p.resources rs := by
      apply hdetaches.imp
      intro r r' ⟨bytes, ⟨_, hr'⟩, _⟩
      rw [hr']
    rw [← List.forall₂_eq_eq_eq, List.forall₂_map_left_iff, List.forall₂_map_right_iff]
    exact hboth.flip
  have hdetached : ∀ r ∈ rs, IsDetached r := by
    intro r hr
    obtain ⟨_, _, bytes, ⟨_, hr'⟩, _⟩ := exists_right_of_forall₂ hdetaches.flip hr
    rw [hr']
    exact ⟨rfl, rfl, rfl⟩
  have hmarkedKeys : ∀ key, key ≠ "auru_pm_snapshot" →
      get? (markedFields fields') key = get? fields' key := by
    intro key hkey
    rw [markedFields, get?_insert, if_neg hkey]
  refine ⟨?_, ⟨rs, hp', hids, fun _ => ?_⟩, ?_, normalizeForMerge_eq ?_⟩
  · apply snapshotFormat_marked _ hp' (validate_detached hvalid hids hdetached)
    rw [hkeys _ (by decide), hformat]
  · apply hdetaches.imp
    intro r r' ⟨bytes, hbytes, hmem⟩
    exact ⟨bytes, hbytes, hstored _ hmem⟩
  · intro htwo
    rw [hversion] at htwo
    cases htwo
  · have hmarkedSorted : Sorted (markedFields fields') := sorted_insert hsorted' _ _
    rw [normalized_two hmarkedSorted hp' rfl hdetached]
    · rw [hcheck]
      rfl
    · apply shown_of_metadata hp' hdaw
      rw [hmarkedKeys _ (by decide), hkeys _ (by decide)]
      exact hmetadata
    · intro elems helems
      rw [hmarkedKeys _ (by decide)] at helems
      exact hobjects elems helems

/-- Whatever the document comes out as, with others at work that leave the blobs alone, means the
same. -/
def NormalizesWell (F : Formats Bytes Hash) (C : Codecs Bytes Hash)
    (problems : Value → List IntegrityProblem) (info : Value → Option Bytes) (push : Nat)
    (request : PushRequest Client Bytes Hash) (v : Value) (p : PortableSnapshot Hash)
    (s : Shared Client Bytes Hash) : Prop :=
  Among F push request (onOk fun v' s' => Carries F C problems info v p v' s')
    (Push.normalizeForMerge F (kernelReaders F C problems info) v) s

/-- A version-one document whose absent `metadata` is spelled out stays in version one. -/
theorem shown_of_normalizesWell {s : Shared Client Bytes Hash} {v : Value}
    (hformat : snapshotFormat C v = .ok .dawproject) {p : PortableSnapshot Hash}
    (hp : readPortable C v = some p)
    (hwell : NormalizesWell F C problems info push request v p s) :
    p.auruPmSnapshot = 2 ∨ v.get "metadata" ≠ some .null := by
  obtain ⟨fields, p', rfl, hfield, hp', _⟩ := snapshotFormat_dawproject hformat
  obtain rfl : p = p' := Option.some.inj (hp.symm.trans hp')
  obtain ⟨-, hdaw, -, -, -⟩ := readPortable_object_iff.mp hp
  rw [hfield] at hdaw
  apply Classical.byContradiction
  intro hnot
  obtain ⟨hversion, hmetadata⟩ := not_or.mp hnot
  have hhidden := (snapshotParts_isNone_iff hp (Option.some.inj hdaw).symm).mpr (not_not.mp hmetadata)
  rw [NormalizesWell, normalizeForMerge_eq (normalized_hidden hhidden)] at hwell
  obtain ⟨_, ⟨rs, hread, _⟩, _, _⟩ := hwell s (Aside.refl s)
  rw [hp] at hread
  exact hversion (congrArg PortableSnapshot.auruPmSnapshot (Option.some.inj hread))

theorem normalizesWell_of_shown (hF : F.Lawful) (hC : DescribesBlobs F C) {s : Shared Client Bytes Hash}
    (hs : s.provider.Healthy F) {v : Value} (hv : v.wf = true)
    (hformat : snapshotFormat C v = .ok .dawproject) {p : PortableSnapshot Hash}
    (hp : readPortable C v = some p)
    (hshown : p.auruPmSnapshot = 2 ∨ v.get "metadata" ≠ some .null) :
    NormalizesWell F C problems info push request v p s := by
  obtain ⟨fields, p', rfl, hfield, hp', hvalid⟩ := snapshotFormat_dawproject hformat
  obtain rfl : p = p' := Option.some.inj (hp.symm.trans hp')
  obtain ⟨⟨hlow, hhigh⟩, -, -, -, hresources⟩ := PortableSnapshot.validate_ok_iff.mp hvalid
  obtain ⟨hall, -⟩ := validateResources_ok_iff.mp hresources
  obtain ⟨hsorted, -⟩ := Value.wf_object.mp hv
  refine Meets.ofExcept_bind (fun ⟨v', blobs⟩ hnormalized => ?_) fun _ _ _ _ => trivial
  refine Meets.bind_ok Aside.refl (among_storeLegacy hF blobs hs) fun _ s₁ ⟨hstored, _⟩ => ?_
  refine Meets.pure_ok fun s₂ h₂ => ?_
  have hstored : BlobsStored F blobs s₂ := fun blob hblob => h₂.keeps _ _ (hstored blob hblob)
  by_cases htwo : p.auruPmSnapshot = 2
  · have hdetached : ∀ r ∈ p.resources, IsDetached r := by
      intro r hr
      have hvalid := (hall r hr).2.2
      rwa [htwo, ArchiveResource.validate_two_iff] at hvalid
    exact carries_two hsorted hformat hp htwo hdetached hnormalized s₂
  · have hone : p.auruPmSnapshot = 1 := by omega
    have hdata : ∀ r ∈ p.resources, r.data.isSome = true := by
      intro r hr
      have hvalid := (hall r hr).2.2
      rwa [hone, ArchiveResource.validate_one_iff] at hvalid
    exact carries_one hC hsorted hfield hp hvalid hone hdata (hshown.resolve_left htwo) hnormalized
      hstored

/-- A document is normalized well unless it is in version one and spells out that it has no
metadata. -/
theorem normalizesWell_iff (hF : F.Lawful) (hC : DescribesBlobs F C) {s : Shared Client Bytes Hash}
    (hs : s.provider.Healthy F) {v : Value} (hv : v.wf = true)
    (hformat : snapshotFormat C v = .ok .dawproject) {p : PortableSnapshot Hash}
    (hp : readPortable C v = some p) :
    NormalizesWell F C problems info push request v p s ↔
      p.auruPmSnapshot = 2 ∨ v.get "metadata" ≠ some .null :=
  ⟨shown_of_normalizesWell hformat hp, normalizesWell_of_shown hF hC hs hv hformat hp⟩

end Storing

end Document

/-! A take in version one. -/

/-- Symbolic hashes with texts of their own. -/
def symbolicTexts : Formats Term Term :=
  { symbolicJson with
    hashText := fun
      | .text s => s
      | _ => "" }

theorem symbolicTexts_lawful : symbolicTexts.Lawful where
  hash_injective := symbolic_lawful.hash_injective
  decode_frame := symbolic_lawful.decode_frame
  encode_id := symbolic_lawful.encode_id
  decode_commit := symbolic_lawful.decode_commit
  decode_manifest := symbolic_lawful.decode_manifest

theorem symbolicTexts_describes : DescribesBlobs symbolicTexts symbolicCodecs where
  hash encoded bytes h := by
    cases h
    rfl
  size encoded bytes _ := (by decide : 0 < 2 ^ 64)

/-- A project in version one with a take in it. -/
def inlineTake (metadata : List (String × Value)) : Value :=
  .object ([("auru_pm_snapshot", .number (.posInt 1)), ("format", .string "dawproject")] ++ metadata ++
    [("project", .object [("root", .object [("tag", .string "Project")])]),
      ("resources", .array [.object [("data", .string "take"), ("id", .string "audio/take.wav")]])])

def inlineWrapper : PortableSnapshot Term :=
  ⟨1, .dawproject, ⟨.mk "Project" none [] []⟩, none,
    [⟨"audio/take.wav", some "take", none, none⟩]⟩

theorem inlineTake_format {metadata : List (String × Value)}
    (h : (snapshotFormat symbolicCodecs (inlineTake metadata)).toOption = some .dawproject) :
    snapshotFormat symbolicCodecs (inlineTake metadata) = .ok .dawproject := by
  cases hf : snapshotFormat symbolicCodecs (inlineTake metadata) with
  | error e =>
    rw [hf] at h
    cases h
  | ok format =>
    rw [hf] at h
    exact congrArg _ (Option.some.inj h)

theorem normalizesWell_take :
    NormalizesWell symbolicTexts symbolicCodecs (fun _ => []) (fun _ => none) 0
      (pushOf 0 (inlineTake [])) (inlineTake []) inlineWrapper
      (.start : Shared Nat Term Term) := by
  have hs : (Shared.start : Shared Nat Term Term).provider.Healthy symbolicTexts := by
    intro e he
    cases he
  have hp : readPortable symbolicCodecs (inlineTake []) = some inlineWrapper := rfl
  exact (normalizesWell_iff symbolicTexts_lawful symbolicTexts_describes hs (by decide +kernel)
    (inlineTake_format (by decide +kernel)) hp).mpr (.inr nofun)

/-- Without metadata, spelled out, the take stays in the document. -/
theorem nullMetadata_stays :
    snapshotFormat symbolicCodecs (inlineTake noMetadata) = .ok .dawproject ∧
      readPortable symbolicCodecs (inlineTake noMetadata) = some inlineWrapper ∧
      ¬ NormalizesWell symbolicTexts symbolicCodecs (fun _ => []) (fun _ => none) 0
        (pushOf 0 (inlineTake noMetadata)) (inlineTake noMetadata) inlineWrapper
        (.start : Shared Nat Term Term) := by
  have hformat : snapshotFormat symbolicCodecs (inlineTake noMetadata) = .ok .dawproject :=
    inlineTake_format (by decide +kernel)
  have hp : readPortable symbolicCodecs (inlineTake noMetadata) = some inlineWrapper := rfl
  refine ⟨hformat, hp, fun hwell => ?_⟩
  rcases shown_of_normalizesWell hformat hp hwell with hversion | hmetadata
  · cases hversion
  · exact hmetadata rfl

end AuruPm
