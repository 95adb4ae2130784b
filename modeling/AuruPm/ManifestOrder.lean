import AuruPm.Lib.BinarySearch
import AuruPm.CommitText
import AuruPm.ManifestEntries

/-!
# Order of the manifest

`SampleManifest::insert` with the binary search it makes, and the encoding that a manifest is
hashed by. On sorted entries the search finds what a pass over them finds, so every sequence of
insertions leaves the last entry of each path, sorted.
-/

namespace AuruPm

set_option autoImplicit false

open SortedAssoc BinarySearch

variable {Bytes Hash : Type}

def SampleManifest.new : SampleManifest Hash := ⟨[]⟩

def insertBySearch (entry : SampleEntry Hash) (entries : List (SampleEntry Hash)) :
    List (SampleEntry Hash) :=
  match binarySearchBy (fun e => compare e.path entry.path) entries with
  | .ok idx => entries.set idx entry
  | .error idx => entries.insertIdx idx entry

/-- `SampleManifest::insert` -/
def SampleManifest.insertBySearch (m : SampleManifest Hash) (entry : SampleEntry Hash) :
    SampleManifest Hash :=
  ⟨AuruPm.insertBySearch entry m.entries⟩

/-! Encoding. -/

def AssetKind.tag : AssetKind → String
  | .sample => "sample"
  | .analysis => "analysis"
  | .preset => "preset"
  | .backup => "backup"
  | .projectInfo => "project-info"
  | .other => "other"

def AssetKind.isDefault (kind : AssetKind) : Bool := kind = .sample

def SampleEntry.toValue (F : Formats Bytes Hash) (entry : SampleEntry Hash) : Value :=
  structValue <|
    [("path", .string entry.path), ("hash", hashValue F entry.hash),
      ("size", .number (.ofInt entry.size))] ++
      (if entry.kind.isDefault then [] else [("kind", .string entry.kind.tag)]) ++
      skipNone "origin" .string entry.origin

def SampleManifest.toValue (F : Formats Bytes Hash) (m : SampleManifest Hash) : Value :=
  structValue [("entries", .array (m.entries.map (SampleEntry.toValue F)))]

mutual
def sortJsonObjects : Value → Value
  | .object fields =>
    .object ((sortFields fields).foldl (fun m e => SortedAssoc.insert e.1 e.2 m) [])
  | .array elems => .array (sortElems elems)
  | v => v
def sortElems : List Value → List Value
  | [] => []
  | v :: vs => sortJsonObjects v :: sortElems vs
def sortFields : List (String × Value) → List (String × Value)
  | [] => []
  | (key, v) :: fields => (key, sortJsonObjects v) :: sortFields fields
end

theorem sortElems_eq (elems : List Value) : sortElems elems = elems.map sortJsonObjects := by
  induction elems with
  | nil => rfl
  | cons v elems ih => rw [sortElems, ih, List.map_cons]

theorem sortFields_eq (fields : List (String × Value)) :
    sortFields fields = fields.map fun e => (e.1, sortJsonObjects e.2) := by
  induction fields with
  | nil => rfl
  | cons e fields ih => rw [sortFields, ih, List.map_cons]

/-- Every object is sorted, whatever order its keys came in. -/
theorem wf_sortJsonObjects (v : Value) : (sortJsonObjects v).wf = true := by
  induction v using Value.induct with
  | array elems ih =>
    rw [sortJsonObjects, sortElems_eq, Value.wf_array]
    exact List.forall_mem_map.mpr ih
  | object fields ih =>
    rw [sortJsonObjects, sortFields_eq, Value.wf_object]
    refine ⟨sorted_foldl_insert _ List.Pairwise.nil, ?_⟩
    intro e he
    rcases mem_foldl_insert he with h | ⟨a, ha, rfl⟩
    · cases h
    · obtain ⟨f, hf, rfl⟩ := List.mem_map.mp ha
      exact ih f hf
  | _ => rfl

def blobEncoding (F : Formats Bytes Hash) (v : Value) : Bytes := F.encodeValue (sortJsonObjects v)

def SampleManifest.canonicalEncoding (F : Formats Bytes Hash) (m : SampleManifest Hash) : Bytes :=
  blobEncoding F (m.toValue F)

def SampleManifest.contentHash (F : Formats Bytes Hash) (m : SampleManifest Hash) : Hash :=
  F.contentHash (m.canonicalEncoding F)

/-! The search on sorted entries. -/

/-- Paths increase strictly. -/
def SortedEntries (entries : List (SampleEntry Hash)) : Prop :=
  entries.Pairwise fun e e' => e.path < e'.path

/-- Where a path stands among sorted entries. -/
theorem SortedEntries.split {entries : List (SampleEntry Hash)} (h : SortedEntries entries)
    (path : String) :
    ∃ low high, (∀ e ∈ low, e.path < path) ∧ (∀ e ∈ high, path < e.path) ∧
      (entries = low ++ high ∨ ∃ e, e.path = path ∧ entries = low ++ e :: high) := by
  induction entries with
  | nil => exact ⟨[], [], nofun, nofun, Or.inl rfl⟩
  | cons e entries ih =>
    obtain ⟨hhead, htail⟩ := List.pairwise_cons.mp h
    rcases lt_trichotomy e.path path with hlt | heq | hgt
    · obtain ⟨low, high, hlow, hhigh, hentries⟩ := ih htail
      refine ⟨e :: low, high, List.forall_mem_cons.mpr ⟨hlt, hlow⟩, hhigh, ?_⟩
      rcases hentries with rfl | ⟨x, hx, rfl⟩
      · exact Or.inl rfl
      · exact Or.inr ⟨x, hx, rfl⟩
    · exact ⟨[], entries, nofun, heq ▸ hhead, Or.inr ⟨e, heq, rfl⟩⟩
    · refine ⟨[], e :: entries, nofun, List.forall_mem_cons.mpr ⟨hgt, ?_⟩, Or.inl rfl⟩
      exact fun e' he' => hgt.trans (hhead e' he')

theorem insertEntry_append {entry : SampleEntry Hash} {low : List (SampleEntry Hash)}
    (hlow : ∀ e ∈ low, e.path < entry.path) (rest : List (SampleEntry Hash)) :
    insertEntry entry (low ++ rest) = low ++ insertEntry entry rest := by
  induction low with
  | nil => rfl
  | cons e low ih =>
    obtain ⟨hlt, hrest⟩ := List.forall_mem_cons.mp hlow
    rw [List.cons_append, insertEntry, if_neg (not_lt_of_gt hlt), if_neg hlt.ne', ih hrest]
    rfl

theorem insertEntry_below {entry : SampleEntry Hash} {high : List (SampleEntry Hash)}
    (hhigh : ∀ e ∈ high, entry.path < e.path) : insertEntry entry high = entry :: high := by
  cases high with
  | nil => rfl
  | cons e high => rw [insertEntry, if_pos (hhigh e List.mem_cons_self)]

theorem insertIdx_append (low high : List (SampleEntry Hash)) (entry : SampleEntry Hash) :
    (low ++ high).insertIdx low.length entry = low ++ entry :: high := by
  induction low with
  | nil => rfl
  | cons e low ih => rw [List.cons_append, List.length_cons, List.insertIdx_succ_cons, ih]; rfl

theorem insertBySearch_eq {entries : List (SampleEntry Hash)} (h : SortedEntries entries)
    (entry : SampleEntry Hash) : insertBySearch entry entries = insertEntry entry entries := by
  obtain ⟨low, high, hlow, hhigh, hentries⟩ := h.split entry.path
  have hlow' : ∀ e ∈ low, compare e.path entry.path = .lt := fun e he =>
    compare_lt_iff_lt.mpr (hlow e he)
  have hhigh' : ∀ e ∈ high, compare e.path entry.path = .gt := fun e he =>
    compare_gt_iff_gt.mpr (hhigh e he)
  rcases hentries with rfl | ⟨x, hx, rfl⟩
  · rw [insertBySearch, binarySearchBy_missing hlow' hhigh', insertEntry_append hlow,
      insertEntry_below hhigh]
    exact insertIdx_append low high entry
  · rw [insertBySearch, binarySearchBy_found hlow' (compare_eq_iff_eq.mpr hx) hhigh',
      insertEntry_append hlow, insertEntry, if_neg (by rw [hx]; exact lt_irrefl _), if_pos hx.symm]
    change (low ++ x :: high).set low.length entry = low ++ entry :: high
    rw [List.set_append_right _ _ (Nat.le_refl _), Nat.sub_self, List.set_cons_zero]

/-! Sequences of insertions. -/

/-- The entries as a map from paths. -/
def byPath (entries : List (SampleEntry Hash)) : List (String × SampleEntry Hash) :=
  entries.map fun e => (e.path, e)

theorem sorted_byPath_iff {entries : List (SampleEntry Hash)} :
    Sorted (byPath entries) ↔ SortedEntries entries :=
  List.pairwise_map

theorem byPath_insertEntry (entry : SampleEntry Hash) (entries : List (SampleEntry Hash)) :
    byPath (insertEntry entry entries) =
      SortedAssoc.insert entry.path entry (byPath entries) := by
  induction entries with
  | nil => rfl
  | cons e entries ih =>
    change byPath (AuruPm.insertEntry entry (e :: entries)) =
      SortedAssoc.insert entry.path entry ((e.path, e) :: byPath entries)
    rw [AuruPm.insertEntry, SortedAssoc.insert, ← ih]
    split
    · rfl
    · split <;> rfl

theorem SortedEntries.insertEntry {entries : List (SampleEntry Hash)} (h : SortedEntries entries)
    (entry : SampleEntry Hash) : SortedEntries (insertEntry entry entries) := by
  rw [← sorted_byPath_iff, byPath_insertEntry]
  exact sorted_insert (sorted_byPath_iff.mpr h) _ _

theorem SortedEntries.mem_iff {entries : List (SampleEntry Hash)} (h : SortedEntries entries)
    {e : SampleEntry Hash} : e ∈ entries ↔ get? (byPath entries) e.path = some e := by
  constructor
  · intro he
    exact get?_of_mem (sorted_byPath_iff.mpr h) (List.mem_map_of_mem he)
  · intro hget
    obtain ⟨x, hx, heq⟩ := List.mem_map.mp (mem_of_get? hget)
    have hsame : x = e := congrArg Prod.snd heq
    exact hsame ▸ hx

/-- The manifest that a sequence of insertions makes. -/
def SampleManifest.ofInsertions (inserted : List (SampleEntry Hash)) : SampleManifest Hash :=
  inserted.foldl SampleManifest.insertBySearch .new

theorem ofInsertions_concat (inserted : List (SampleEntry Hash)) (entry : SampleEntry Hash) :
    (SampleManifest.ofInsertions (inserted ++ [entry])).entries =
      insertBySearch entry (SampleManifest.ofInsertions inserted).entries := by
  rw [SampleManifest.ofInsertions, List.foldl_append]
  rfl

theorem sorted_ofInsertions (inserted : List (SampleEntry Hash)) :
    SortedEntries (SampleManifest.ofInsertions inserted).entries := by
  induction inserted using List.reverseRecOn with
  | nil => exact List.Pairwise.nil
  | append_singleton inserted entry ih =>
    rw [ofInsertions_concat, insertBySearch_eq ih]
    exact ih.insertEntry entry

/-- The last entry inserted under a path is the one that is found there. -/
theorem get?_ofInsertions (inserted : List (SampleEntry Hash)) (path : String) :
    get? (byPath (SampleManifest.ofInsertions inserted).entries) path =
      inserted.reverse.find? (fun e => e.path = path) := by
  induction inserted using List.reverseRecOn with
  | nil => rfl
  | append_singleton inserted entry ih =>
    rw [ofInsertions_concat, insertBySearch_eq (sorted_ofInsertions inserted), byPath_insertEntry,
      get?_insert, ih, List.reverse_append, List.reverse_singleton, List.singleton_append,
      List.find?_cons]
    by_cases hpath : path = entry.path
    · rw [if_pos hpath, decide_eq_true hpath.symm]
    · rw [if_neg hpath, decide_eq_false (Ne.symm hpath)]

theorem mem_ofInsertions_iff {inserted : List (SampleEntry Hash)} {e : SampleEntry Hash} :
    e ∈ (SampleManifest.ofInsertions inserted).entries ↔
      inserted.reverse.find? (fun x => x.path = e.path) = some e := by
  rw [(sorted_ofInsertions inserted).mem_iff, get?_ofInsertions]

/-- Entries with distinct paths all stay. -/
theorem mem_ofInsertions_of_nodup {inserted : List (SampleEntry Hash)}
    (hnodup : (inserted.map SampleEntry.path).Nodup) {e : SampleEntry Hash} :
    e ∈ (SampleManifest.ofInsertions inserted).entries ↔ e ∈ inserted := by
  rw [mem_ofInsertions_iff]
  constructor
  · intro hfound
    exact List.mem_reverse.mp (List.mem_of_find?_eq_some hfound)
  · intro he
    have hsome : (inserted.reverse.find? fun x => x.path = e.path).isSome := by
      rw [List.find?_isSome]
      exact ⟨e, List.mem_reverse.mpr he, decide_eq_true rfl⟩
    obtain ⟨x, hx⟩ := Option.isSome_iff_exists.mp hsome
    have hmem : x ∈ inserted := List.mem_reverse.mp (List.mem_of_find?_eq_some hx)
    have hpath : x.path = e.path := by
      simpa only [decide_eq_true_eq] using List.find?_some hx
    rw [hx, List.inj_on_of_nodup_map hnodup hmem he hpath]

theorem ofInsertions_perm {inserted inserted' : List (SampleEntry Hash)}
    (hperm : inserted.Perm inserted') (hnodup : (inserted.map SampleEntry.path).Nodup) :
    SampleManifest.ofInsertions inserted' = SampleManifest.ofInsertions inserted := by
  have hnodup' : (inserted'.map SampleEntry.path).Nodup :=
    (hperm.map SampleEntry.path).nodup_iff.mp hnodup
  have hsame : byPath (SampleManifest.ofInsertions inserted').entries =
      byPath (SampleManifest.ofInsertions inserted).entries := by
    apply ext_mem (sorted_byPath_iff.mpr (sorted_ofInsertions inserted'))
      (sorted_byPath_iff.mpr (sorted_ofInsertions inserted))
    intro entry
    simp only [byPath, List.mem_map, mem_ofInsertions_of_nodup hnodup,
      mem_ofInsertions_of_nodup hnodup', hperm.mem_iff]
  have hentries := congrArg (List.map Prod.snd) hsame
  rw [byPath, byPath, List.map_map, List.map_map] at hentries
  simp only [Function.comp_def, List.map_id'] at hentries
  exact congrArg SampleManifest.mk hentries

/-- Insertions make one manifest whatever their order: sorted, with the last entry of each path. -/
theorem manifest_canonical (F : Formats Bytes Hash) (inserted : List (SampleEntry Hash)) :
    (SampleManifest.ofInsertions inserted).entries.Pairwise (fun e e' => e.path < e'.path) ∧
    (∀ e, e ∈ (SampleManifest.ofInsertions inserted).entries ↔
      inserted.reverse.find? (fun x => x.path = e.path) = some e) ∧
    ∀ inserted' : List (SampleEntry Hash), inserted.Perm inserted' →
      (inserted.map SampleEntry.path).Nodup →
        (SampleManifest.ofInsertions inserted').canonicalEncoding F =
            (SampleManifest.ofInsertions inserted).canonicalEncoding F ∧
          (SampleManifest.ofInsertions inserted').contentHash F =
            (SampleManifest.ofInsertions inserted).contentHash F := by
  refine ⟨sorted_ofInsertions inserted, fun e => mem_ofInsertions_iff, ?_⟩
  intro inserted' hperm hnodup
  rw [ofInsertions_perm hperm hnodup]
  exact ⟨rfl, rfl⟩

end AuruPm
