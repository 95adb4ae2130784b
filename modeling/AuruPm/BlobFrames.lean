import AuruPm.Cas

/-!
# Stored blobs

A blob is stored in a frame, compressed if that makes it smaller. Files of older versions are
the content itself. Nothing in a file says which it is: the reading that hashes to the name
of the file is the right one.
-/

namespace AuruPm

set_option autoImplicit false

open SortedAssoc

/-- `FRAME_MAGIC`, the bytes of `AZB1`. -/
def frameMagic : List UInt8 := [65, 90, 66, 49]

def codecRaw : UInt8 := 0
def codecGzip : UInt8 := 1

/-- A fallible function of byte strings, as `gzip` and `gunzip` are. -/
abbrev Coder := List UInt8 → Option (List UInt8)

/-- What was compressed decompresses to what it was. -/
def Coder.Inverts (gunzip gzip : Coder) : Prop :=
  ∀ bytes compressed, gzip bytes = some compressed → gunzip compressed = some bytes

def encodeFrame (gzip : Coder) (bytes : List UInt8) : List UInt8 :=
  match gzip bytes with
  | some compressed =>
    if compressed.length < bytes.length then frameMagic ++ codecGzip :: compressed
    else frameMagic ++ codecRaw :: bytes
  | none => frameMagic ++ codecRaw :: bytes

def decodeFrame (gunzip : Coder) (stored : List UInt8) : Option (List UInt8) :=
  if stored.length < frameMagic.length + 1 ∨ ¬ frameMagic <+: stored then none
  else
    match stored.drop frameMagic.length with
    | [] => none
    | codec :: payload =>
      if codec = codecRaw then some payload
      else if codec = codecGzip then gunzip payload
      else none

theorem decodeFrame_codec (gunzip : Coder) (codec : UInt8) (payload : List UInt8) :
    decodeFrame gunzip (frameMagic ++ codec :: payload) =
      if codec = codecRaw then some payload
      else if codec = codecGzip then gunzip payload
      else none := by
  have hlong : ¬ (frameMagic ++ codec :: payload).length < frameMagic.length + 1 := by
    rw [List.length_append, List.length_cons]
    omega
  rw [decodeFrame, if_neg (not_or.mpr ⟨hlong, not_not.mpr (List.prefix_append _ _)⟩),
    List.drop_left]

theorem decodeFrame_encodeFrame {gunzip gzip : Coder} (hz : gunzip.Inverts gzip)
    (bytes : List UInt8) : decodeFrame gunzip (encodeFrame gzip bytes) = some bytes := by
  unfold encodeFrame
  cases hc : gzip bytes with
  | none =>
    simp only [decodeFrame_codec, if_true]
  | some compressed =>
    simp only
    split
    · rw [decodeFrame_codec, if_neg (by decide), if_pos rfl, hz bytes compressed hc]
    · rw [decodeFrame_codec, if_pos rfl]

/-- The formats with this frame. -/
def framed {Hash : Type} (gunzip gzip : Coder) (F : Formats (List UInt8) Hash) :
    Formats (List UInt8) Hash :=
  { F with encodeFrame := encodeFrame gzip, decodeFrame := decodeFrame gunzip }

theorem framed_lawful {Hash : Type} {gunzip gzip : Coder} {F : Formats (List UInt8) Hash}
    (hz : gunzip.Inverts gzip) (hF : F.Lawful) : (framed gunzip gzip F).Lawful where
  hash_injective := hF.hash_injective
  decode_frame := decodeFrame_encodeFrame hz
  encode_id := hF.encode_id
  decode_commit := hF.decode_commit
  decode_manifest := hF.decode_manifest

/-- The files of a store: a blob under its hash, and the file that it is first written to. -/
inductive BlobPath (Hash : Type) where
  | blob (hash : Hash)
  | tmp (hash : Hash)
  deriving DecidableEq

abbrev BlobDir (Hash : Type) := BlobPath Hash → Option (List UInt8)

/-- Which file operations of a write fail. A failed one may leave a part of the file. -/
structure PutFaults where
  createDir : Option String := none
  write : Option (String × Option (List UInt8)) := none
  rename : Option String := none
  removeTmp : Bool := false

namespace BlobDir

variable {Hash : Type} [DecidableEq Hash] (F : Formats (List UInt8) Hash)

def put (gzip : Coder) (faults : PutFaults) (hash : Hash) (bytes : List UInt8)
    (dir : BlobDir Hash) : BlobDir Hash × Except Error Unit :=
  let computed := F.contentHash bytes
  if computed ≠ hash then
    (dir, .error (.other ("hash mismatch: caller said " ++ F.hashText hash ++
      ", content hashed to " ++ F.hashText computed)))
  else if (dir (.blob hash)).isSome then (dir, .ok ())
  else
    let frame := encodeFrame gzip bytes
    match faults.createDir with
    | some detail => (dir, .error (.io detail))
    | none =>
      match faults.write with
      | some (detail, left) => (Function.update dir (.tmp hash) left, .error (.io detail))
      | none =>
        let written := Function.update dir (.tmp hash) (some frame)
        match faults.rename with
        | some detail =>
          (if faults.removeTmp then written else Function.update written (.tmp hash) none,
            .error (.io detail))
        | none =>
          (Function.update (Function.update written (.blob hash) (some frame)) (.tmp hash) none,
            .ok ())

def get (gunzip : Coder) (fault : Option String) (hash : Hash) (dir : BlobDir Hash) :
    Except Error (List UInt8) :=
  match fault with
  | some detail => .error (.io detail)
  | none =>
    match dir (.blob hash) with
    | none => .error (.notFound (F.hashText hash))
    | some stored =>
      match (decodeFrame gunzip stored).filter fun decoded => decide (F.contentHash decoded = hash) with
      | some decoded => .ok decoded
      | none =>
        -- written before framing, or content that merely looks framed
        if F.contentHash stored = hash then .ok stored
        else
          .error (.other ("blob " ++ F.hashText hash ++
            " is corrupt: stored bytes do not hash to their name"))

/-- Stores whose files were written by `put`, with whatever encoder and whatever failed, or are
raw blobs of earlier versions. Files may also have been removed. -/
inductive Written (gunzip : Coder) : BlobDir Hash → Prop
  | empty : Written gunzip fun _ => none
  | put {dir : BlobDir Hash} (h : Written gunzip dir) {gzip : Coder} (hz : gunzip.Inverts gzip)
      (faults : PutFaults) (hash : Hash) (bytes : List UInt8) :
      Written gunzip (dir.put F gzip faults hash bytes).1
  | older {dir : BlobDir Hash} (h : Written gunzip dir) (bytes : List UInt8) :
      Written gunzip (Function.update dir (.blob (F.contentHash bytes)) (some bytes))
  | removed {dir : BlobDir Hash} (h : Written gunzip dir) (path : BlobPath Hash) :
      Written gunzip (Function.update dir path none)

/-- The file at a blob's place is its content or a frame of it. -/
def Holds (gunzip : Coder) (hash : Hash) (stored : List UInt8) : Prop :=
  ∃ bytes, F.contentHash bytes = hash ∧
    (stored = bytes ∨ decodeFrame gunzip stored = some bytes)

def Sound (gunzip : Coder) (dir : BlobDir Hash) : Prop :=
  ∀ hash stored, dir (.blob hash) = some stored → Holds F gunzip hash stored

variable {F} {gunzip gzip : Coder} {dir : BlobDir Hash}

/-- A write changes no blob but, when it ends well and there was none, its own. -/
theorem put_blob (faults : PutFaults) (hash : Hash) (bytes : List UInt8) (other : Hash) :
    (dir.put F gzip faults hash bytes).1 (.blob other) = dir (.blob other) ∨
      other = hash ∧ F.contentHash bytes = hash ∧
      (dir.put F gzip faults hash bytes).1 (.blob other) = some (encodeFrame gzip bytes) := by
  unfold put
  simp only
  split
  · exact .inl rfl
  · rename_i hsame
    split
    · exact .inl rfl
    · split
      · exact .inl rfl
      · split
        · exact .inl (by simp)
        · split
          · split <;> exact .inl (by simp)
          · by_cases ho : other = hash
            · exact .inr ⟨ho, not_not.mp hsame, by simp [ho]⟩
            · exact .inl (by simp [ho])

/-- After a write that ended well there is a file at the blob's place. -/
theorem put_stored {faults : PutFaults} {hash : Hash} {bytes : List UInt8} {dir' : BlobDir Hash}
    (h : dir.put F gzip faults hash bytes = (dir', .ok ())) :
    F.contentHash bytes = hash ∧ ∃ stored, dir' (.blob hash) = some stored := by
  unfold put at h
  simp only at h
  split at h
  · cases h
  · rename_i hsame
    refine ⟨not_not.mp hsame, ?_⟩
    split at h
    · rename_i hthere
      cases h
      exact Option.isSome_iff_exists.mp hthere
    · split at h
      · cases h
      · split at h
        · cases h
        · split at h
          · cases h
          · cases h
            exact ⟨encodeFrame gzip bytes, by simp⟩

theorem Written.sound (h : Written F gunzip dir) : Sound F gunzip dir := by
  induction h with
  | empty =>
    intro hash stored hs
    cases hs
  | @put dir _ gzip hz faults hash bytes ih =>
    intro other stored hs
    rcases @put_blob _ _ F gzip dir faults hash bytes other with
      hsame | ⟨rfl, hhash, hframe⟩
    · exact ih other stored (hsame ▸ hs)
    · rw [hframe] at hs
      cases hs
      exact ⟨bytes, hhash, .inr (decodeFrame_encodeFrame hz bytes)⟩
  | older _ bytes ih =>
    intro other stored hs
    by_cases ho : other = F.contentHash bytes
    · subst ho
      rw [Function.update_self] at hs
      cases hs
      exact ⟨bytes, rfl, .inl rfl⟩
    · rw [Function.update_of_ne (by simpa using ho)] at hs
      exact ih other stored hs
  | removed _ path ih =>
    intro other stored hs
    by_cases ho : BlobPath.blob other = path
    · subst ho
      rw [Function.update_self] at hs
      cases hs
    · rw [Function.update_of_ne ho] at hs
      exact ih other stored hs

/-- What comes back hashes to the name, whatever is in the file. -/
theorem get_hash {fault : Option String} {hash : Hash} {bytes : List UInt8}
    (h : dir.get F gunzip fault hash = .ok bytes) : F.contentHash bytes = hash := by
  unfold get at h
  split at h
  · cases h
  · split at h
    · cases h
    · split at h
      · rename_i decoded hd
        cases h
        have hkept := (Option.filter_eq_some_iff.mp hd).2
        simpa using hkept
      · split at h
        · cases h
          assumption
        · cases h

theorem get_of_holds {hash : Hash} {stored : List UInt8} (hs : dir (.blob hash) = some stored)
    (h : Holds F gunzip hash stored) : ∃ bytes, dir.get F gunzip none hash = .ok bytes := by
  obtain ⟨bytes, hhash, hform⟩ := h
  unfold get
  simp only [hs]
  split
  · exact ⟨_, rfl⟩
  · rename_i hnone
    rcases hform with rfl | hframe
    · exact ⟨stored, if_pos hhash⟩
    · rw [hframe] at hnone
      simp [hhash] at hnone

/-- After a write of a blob that ended well the blob is read back. Nothing else ever is. -/
theorem blobs_returned (F : Formats (List UInt8) Hash) {gunzip gzip : Coder}
    (hinj : Function.Injective F.contentHash) (hz : gunzip.Inverts gzip) {dir : BlobDir Hash}
    (hw : Written F gunzip dir) (faults : PutFaults) (bytes : List UInt8) {dir' : BlobDir Hash}
    (hput : dir.put F gzip faults (F.contentHash bytes) bytes = (dir', .ok ())) :
    dir'.get F gunzip none (F.contentHash bytes) = .ok bytes ∧
      ∀ (anything : BlobDir Hash) (fault : Option String) (hash : Hash) (read : List UInt8),
        anything.get F gunzip fault hash = .ok read → F.contentHash read = hash := by
  refine ⟨?_, fun anything fault hash read h => get_hash h⟩
  obtain ⟨-, stored, hstored⟩ := put_stored hput
  have hsound : Sound F gunzip dir' := by
    have hnext := (Written.put hw hz faults (F.contentHash bytes) bytes).sound
    rwa [hput] at hnext
  obtain ⟨read, hread⟩ := get_of_holds hstored (hsound _ _ hstored)
  rw [hread, hinj (get_hash hread)]

/-- Bytes are their own hash. Nothing but blobs is encoded. -/
def byteFormats : Formats (List UInt8) (List UInt8) where
  contentHash := id
  zero := []
  hashText _ := ""
  byteLength := List.length
  encodeFrame := id
  decodeFrame := some
  encodeCommit _ := .error ""
  decodeCommit _ := .error ""
  encodeManifest _ := .error ""
  decodeManifest _ := .error ""
  encodeValue _ := []
  decodeValue _ := .error ""

/-- Content that looks like a compressed frame: `AZB1`, the codec byte, `not actually gzip`. -/
def framedLook : List UInt8 :=
  frameMagic ++ codecGzip :: "not actually gzip".toUTF8.toList

/-- The gzip file of that content. -/
def framedLookGzip : List UInt8 :=
  [31, 139, 8, 0, 0, 0, 0, 0, 0, 255, 115, 140, 114, 50, 100, 204, 203, 47, 81, 72, 76, 46, 41, 77,
    204, 201, 169, 84, 72, 175, 202, 44, 0, 0, 17, 170, 43, 153, 22, 0, 0, 0]

/-- An earlier version stored it raw. The file is kept, and is not taken for a frame. -/
theorem blobs_returned_framedLook :
    let gzip : Coder := fun bytes => if bytes = framedLook then some framedLookGzip else none
    let gunzip : Coder := fun bytes => if bytes = framedLookGzip then some framedLook else none
    let older : BlobDir (List UInt8) :=
      Function.update (fun _ => none) (.blob framedLook) (some framedLook)
    (older.put byteFormats gzip {} framedLook framedLook).1.get byteFormats gunzip none framedLook =
        .ok framedLook ∧
      ∀ (anything : BlobDir (List UInt8)) (fault : Option String) (hash read : List UInt8),
        anything.get byteFormats gunzip fault hash = .ok read → read = hash := by
  intro gzip gunzip older
  have hz : gunzip.Inverts gzip := by
    intro bytes compressed hc
    simp only [gzip] at hc
    split at hc
    · rename_i hb
      cases hc
      exact (if_pos rfl).trans (congrArg some hb.symm)
    · cases hc
  have hput : older.put byteFormats gzip {} framedLook framedLook = (older, .ok ()) := by
    simp [put, byteFormats, older]
  have hkept := blobs_returned byteFormats (fun _ _ h => h) hz (.older .empty framedLook) {}
    framedLook hput
  rw [hput]
  exact hkept

/-! The store as the rest of the provider sees it. -/

/-- The store lists the blob files of the folder. -/
def Represents (cas : Cas (List UInt8) Hash) (dir : BlobDir Hash) : Prop :=
  ∀ hash, (get? cas hash).map StoredFile.stored = dir (.blob hash)

theorem get_represents {cas : Cas (List UInt8) Hash} (h : Represents cas dir) (hash : Hash) :
    cas.get (framed gunzip gzip F) {} hash = dir.get F gunzip none hash := by
  unfold Cas.get get
  rw [← h hash]
  cases get? cas hash with
  | none => rfl
  | some file =>
    simp only [Option.map_some, Cas.plain, framed]
    cases hd : decodeFrame gunzip file.stored with
    | none =>
      by_cases hraw : F.contentHash file.stored = hash <;> simp [hraw]
    | some decoded =>
      by_cases hhash : F.contentHash decoded = hash
      · simp [hhash, Option.filter_some]
      · by_cases hraw : F.contentHash file.stored = hash <;>
          simp [hhash, hraw, Option.filter_some]

/-- A write that no file operation stops does to the folder what it does to the store. -/
theorem put_represents {cas : Cas (List UInt8) Hash} (h : Represents cas dir) (now : Nat)
    (hash : Hash) (bytes : List UInt8) :
    match cas.put (framed gunzip gzip F) now hash bytes with
    | .error e => dir.put F gzip {} hash bytes = (dir, .error e)
    | .ok cas' => (dir.put F gzip {} hash bytes).2 = .ok () ∧
      Represents cas' (dir.put F gzip {} hash bytes).1 := by
  have hthere : cas.has hash = (dir (.blob hash)).isSome := by
    rw [Cas.has, ← h hash, Option.isSome_map]
  by_cases hsame : F.contentHash bytes = hash
  · by_cases hhas : (dir (.blob hash)).isSome = true
    · simp only [Cas.put, put, framed, hsame, hthere, hhas, ne_eq, not_true_eq_false, if_false,
        if_true]
      exact ⟨trivial, h⟩
    · simp only [Cas.put, put, framed, hsame, hthere, hhas, ne_eq, not_true_eq_false, if_false]
      refine ⟨rfl, fun other => ?_⟩
      by_cases ho : other = hash
      · subst ho
        simp
      · rw [get?_cons_of_ne ho, h other]
        simp [ho]
  · simp only [Cas.put, put, framed, hsame, ne_eq, not_false_eq_true, if_true]

end BlobDir

end AuruPm
