import AuruPm.Dawproject
import AuruPm.FileRefs
import AuruPm.Lib.Base64

/-!
# Assets of a DAWproject

The files that a DAWproject refers to, and how large the embedded ones are. The size of a resource
that is kept as base64 is told from its text; it is the number of bytes of every text that can be
decoded.
-/

namespace AuruPm.Dawproject

set_option autoImplicit false

open SortedAssoc

structure DawprojectAssetRef where
  path : String
  external : Bool
  embedded : Bool
  size : Option Nat
  deriving DecidableEq

/-- Size of canonical padded base64. -/
def decodedBase64Size (encoded : String) : Option Nat :=
  if encoded.utf8ByteSize % 4 ≠ 0 then none
  else
    -- The byte of `=` is no part of another character.
    let padding := (encoded.toList.reverse.takeWhile (· = '=')).length
    if padding ≤ 2 then some (encoded.utf8ByteSize / 4 * 3 - padding) else none

/-- The size of each resource, the last one for each path. -/
abbrev ResourceSizes := List (String × Option Nat)

def collectSizes (sizes : List (String × Option Nat)) : ResourceSizes :=
  sizes.foldl (fun resources entry => insert entry.1 entry.2 resources) []

/-- What is said of the file that an element refers to. -/
def assetRef (resources : ResourceSizes) (file : XmlElement) : Option DawprojectAssetRef :=
  ((file.attributeValue "path").filter (· ≠ "")).map fun path =>
    let external := (file.attributeValue "external").any fun value =>
      eqIgnoreAsciiCase value "true" || value = "1"
    let embedded := !external && (get? resources path).isSome
    ⟨path, external, embedded, if embedded then (get? resources path).join else none⟩

def assetRefs (root : XmlElement) (resources : ResourceSizes) : List DawprojectAssetRef :=
  (root.descendants.filter fun element => element.tag = "File").filterMap (assetRef resources)

def collectWithResources (root : XmlElement) (resources : ResourceSizes) :
    List DawprojectAssetRef :=
  (tally (fun asset : DawprojectAssetRef => some asset.path) (fun asset found => found.getD asset)
    (assetRefs root resources) []).map Prod.snd

section Snapshots
variable {Hash : Type}

def ArchiveResource.recordedSize (resource : ArchiveResource Hash) : Option Nat :=
  resource.size.or (resource.data.bind decodedBase64Size)

def collect (portable : PortableSnapshot Hash) : List DawprojectAssetRef :=
  collectWithResources portable.project.root
    (collectSizes (portable.resources.map fun resource =>
      (resource.id, ArchiveResource.recordedSize resource)))

end Snapshots

def resourceSizes (snapshot : Value) : List (String × Option Nat) :=
  (((snapshot.get "resources").bind Value.asArray).getD []).filterMap fun resource =>
    ((resource.get "id").bind Value.asStr).map fun path =>
      (path, ((resource.get "size").bind readU64).or
        (((resource.get "data").bind Value.asStr).bind decodedBase64Size))

def collectFromValue (root : XmlElement) (snapshot : Value) : List DawprojectAssetRef :=
  collectWithResources root (collectSizes (resourceSizes snapshot))

/-! Sizes of encoded resources. -/

/-- The subtraction stays above zero, and the size below the length of the text. -/
theorem decodedBase64Size_exact {encoded : String} {size : Nat}
    (h : decodedBase64Size encoded = some size) :
    size + Base64.padding encoded.toList = encoded.utf8ByteSize / 4 * 3 := by
  have hempty : encoded.utf8ByteSize = 0 → Base64.padding encoded.toList = 0 := by
    intro hzero
    rw [String.utf8ByteSize_eq_zero_iff.mp hzero]
    rfl
  rw [decodedBase64Size, ← Base64.padding] at h
  split at h
  · cases h
  · dsimp only at h
    split at h
    · obtain rfl := Option.some.inj h
      omega
    · cases h

theorem decodedBase64Size_encode (bytes : List UInt8) :
    decodedBase64Size (Base64.encode bytes) = some bytes.length := by
  have hpadding : ((Base64.encode bytes).toList.reverse.takeWhile fun c => decide (c = '=')).length =
      (3 - bytes.length % 3) % 3 := by
    rw [Base64.encode, String.toList_ofList]
    exact Base64.padding_encodeChars bytes
  rw [decodedBase64Size, Base64.utf8ByteSize_encode, if_neg (by omega), hpadding]
  dsimp only
  rw [if_pos (by omega)]
  congr 1
  omega

theorem decodedBase64Size_of_decode {text : String} {bytes : List UInt8}
    (h : Base64.decode text = some bytes) : decodedBase64Size text = some bytes.length := by
  rw [← Base64.decode_eq_some_iff.mp h]
  exact decodedBase64Size_encode bytes

/-- The text tells how many bytes it is decoded to. -/
theorem size_without_decoding :
    (∀ bytes, decodedBase64Size (Base64.encode bytes) = some bytes.length) ∧
      ∀ text bytes, Base64.decode text = some bytes →
        decodedBase64Size text = some bytes.length :=
  ⟨decodedBase64Size_encode, fun _ _ => decodedBase64Size_of_decode⟩

/-! The listed assets. -/

section Listed
variable {root : XmlElement} {resources : ResourceSizes} {asset : DawprojectAssetRef}

theorem foldl_getD (refs : List DawprojectAssetRef) (found : Option DawprojectAssetRef) :
    refs.foldl (fun found asset => some (found.getD asset)) found = found.or refs.head? := by
  induction refs generalizing found with
  | nil => rw [List.foldl_nil, List.head?_nil, Option.or_none]
  | cons asset refs ih =>
    rw [List.foldl_cons, ih]
    cases found <;> rfl

/-- Each path is listed as the first element says that refers to it. -/
theorem mem_collectWithResources : asset ∈ collectWithResources root resources ↔
    (assetRefs root resources).find? (fun ref => ref.path = asset.path) = some asset := by
  have hget : ∀ path, get? (tally (fun ref : DawprojectAssetRef => some ref.path)
      (fun ref found => found.getD ref) (assetRefs root resources) []) path =
        (assetRefs root resources).find? fun ref => ref.path = path := by
    intro path
    rw [get?_tally, foldl_getD, get?_nil, Option.none_or, List.head?_filter]
    simp only [Option.some.injEq]
  constructor
  · intro h
    obtain ⟨⟨path, ref⟩, hentry, rfl⟩ := List.mem_map.mp h
    have hfound := hget path
    rw [get?_of_mem (sorted_tally _ List.Pairwise.nil) hentry] at hfound
    have hpath : ref.path = path := by simpa using List.find?_some hfound.symm
    rw [hpath, ← hfound]
  · intro h
    exact List.mem_map_of_mem (mem_of_get? ((hget asset.path).trans h))

/-- An embedded asset has the size of its resource. -/
theorem size_collected {sizes : List (String × Option Nat)} (hids : (sizes.map Prod.fst).Nodup)
    {size : Option Nat} (hsize : (asset.path, size) ∈ sizes)
    (h : asset ∈ collectWithResources root (collectSizes sizes)) (hembedded : asset.embedded = true) :
    asset.size = size := by
  have hmem : (asset.path, size) ∈ collectSizes sizes := by
    have hperm := perm_foldl_insert sizes [] (by rwa [List.append_nil])
    rw [List.append_nil] at hperm
    exact hperm.mem_iff.mpr hsize
  have hget := get?_of_mem (sorted_foldl_insert sizes List.Pairwise.nil) hmem
  obtain ⟨file, _, href⟩ :=
    List.mem_filterMap.mp (List.mem_of_find?_eq_some (mem_collectWithResources.mp h))
  obtain ⟨path, _, rfl⟩ := Option.map_eq_some_iff.mp href
  dsimp only at hembedded hget ⊢
  rw [if_pos hembedded]
  exact congrArg Option.join hget

end Listed

/-- A resource that is kept as text is listed with the number of its bytes, whether its size is
recorded or not. -/
theorem size_collect {Hash : Type} {portable : PortableSnapshot Hash}
    (hids : (portable.resources.map ArchiveResource.id).Nodup) {resource : ArchiveResource Hash}
    (hresource : resource ∈ portable.resources) {text : String} {bytes : List UInt8}
    (hdata : resource.data = some text) (hdecode : Base64.decode text = some bytes)
    (hsize : ∀ size ∈ resource.size, size = bytes.length) {asset : DawprojectAssetRef}
    (h : asset ∈ collect portable) (hpath : asset.path = resource.id)
    (hembedded : asset.embedded = true) : asset.size = some bytes.length := by
  have hrecorded : ArchiveResource.recordedSize resource = some bytes.length := by
    rw [ArchiveResource.recordedSize, hdata, Option.bind_some,
      decodedBase64Size_of_decode hdecode]
    cases hrecord : resource.size with
    | none => rfl
    | some size => rw [hsize size hrecord]; rfl
  refine size_collected ?_ ?_ h hembedded
  · rw [List.map_map]
    exact hids
  · rw [hpath, ← hrecorded]
    exact List.mem_map_of_mem hresource

end AuruPm.Dawproject
