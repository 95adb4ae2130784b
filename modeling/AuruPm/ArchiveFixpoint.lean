import AuruPm.SnapshotFixpoint

/-!
# Normalizing what was restored, for archives

A DAWproject archive that is normalized, restored and normalized again: which archives lead back
to the same snapshot with the same entries beside it.
-/

namespace AuruPm

set_option autoImplicit false

open SortedAssoc

section Laws
variable {Bytes Hash : Type} (F : Formats Bytes Hash) (C : Codecs Bytes Hash)
variable (R : SourceCodecs Bytes)

/-- What the ZIP library promises: an entry whose name is short enough and new is taken, and what
was finished is read as it was written. -/
structure ReadsZip : Prop where
  started : ∀ (written : ArchiveEntries Bytes) name, name ∉ written.map Prod.fst →
    (C.zipStart written name = .ok () ↔ name.utf8ByteSize < 2 ^ 16)
  stored : ∀ (written : ArchiveEntries Bytes) name data,
    F.byteLength data ≤ maxArchiveEntryBytes → C.zipWrite written name data = .ok ()
  finished : ∀ written : ArchiveEntries Bytes, (written.map Prod.fst).Nodup →
    (∀ entry ∈ written, F.byteLength entry.2 ≤ maxArchiveEntryBytes) →
      ∃ bytes, C.zipFinish written = .ok bytes
  listed : ∀ (written : ArchiveEntries Bytes) bytes, (written.map Prod.fst).Nodup →
    C.zipFinish written = .ok bytes → ∃ entries : List (ZipEntry Bytes),
      R.zipEntries bytes = .ok (entries.map .ok) ∧
        List.Forall₂ (fun entry w => entry.name = w.1 ∧ entry.size = F.byteLength w.2 ∧
          Streams F entry.read w.2) entries written

/-- An entry that stays as it is when its archive is normalized and restored. -/
def EntryStays (limit : Nat) (entry : ZipEntry Bytes) : Prop :=
  isDirName entry.name = false → entry.name.utf8ByteSize < 2 ^ 16 ∧
    (entry.name = "project.xml" ∨ entry.name = "metadata.xml" →
      ∀ xml, entryBytes F entry = .ok xml →
        XmlStays F C R limit ("DAWproject " ++ entry.name) xml)

/-- What the entries so far amount to when they are written again. -/
structure ArchiveState.Stays (limit : Nat) (s : ArchiveState Bytes Hash) : Prop where
  project : ∀ document ∈ s.project, document.Stays C F limit
  metadata : ∀ document ∈ s.metadata, document.Stays C F limit
  names : ∀ entry ∈ s.detached, entry.1.utf8ByteSize < 2 ^ 16

/-- What is known of entries that were kept beside a snapshot. -/
structure DetachedEntries (detached : List (String × Bytes)) : Prop where
  sorted : Sorted detached
  file : ∀ entry ∈ detached, isDirName entry.1 = false
  path : ∀ entry ∈ detached, validateArchivePath entry.1 = .ok ()
  size : ∀ entry ∈ detached, F.byteLength entry.2 ≤ maxArchiveEntryBytes
  other : ∀ entry ∈ detached, entry.1 ≠ "project.xml" ∧ entry.1 ≠ "metadata.xml"

/-- What is known of an archive after some entries. -/
structure ArchiveState.Gathered (s : ArchiveState Bytes Hash) (n : Nat) : Prop where
  detached : DetachedEntries F s.detached
  seen : ∀ entry ∈ s.detached, entry.1 ∈ s.paths
  resources : s.resources.Perm (s.detached.map (detachedResource F))
  project : ∀ document ∈ s.project, document.Parsed C ∧ "project.xml" ∈ s.paths
  metadata : ∀ document ∈ s.metadata, document.Parsed C ∧ "metadata.xml" ∈ s.paths
  count : s.project.toList.length + s.metadata.toList.length + s.detached.length ≤ n

end Laws

section Gather
variable {Bytes Hash : Type} {F : Formats Bytes Hash} {C : Codecs Bytes Hash}
variable {R : SourceCodecs Bytes} {limit n : Nat} {s s' : ArchiveState Bytes Hash}

theorem gathered_initial : (ArchiveState.initial : ArchiveState Bytes Hash).Gathered F C 0 where
  detached := ⟨List.Pairwise.nil, nofun, nofun, nofun, nofun⟩
  seen := nofun
  resources := List.Perm.nil
  project := nofun
  metadata := nofun
  count := Nat.le_refl 0

theorem stays_initial : (ArchiveState.initial : ArchiveState Bytes Hash).Stays F C limit :=
  ⟨nofun, nofun, nofun⟩

theorem ArchiveState.Gathered.project_none (h : s.Gathered F C n) (hnew : "project.xml" ∉ s.paths) :
    s.project = none := by
  cases hproject : s.project with
  | none => rfl
  | some document => exact absurd (h.project document hproject).2 hnew

theorem ArchiveState.Gathered.metadata_none (h : s.Gathered F C n)
    (hnew : "metadata.xml" ∉ s.paths) : s.metadata = none := by
  cases hmetadata : s.metadata with
  | none => rfl
  | some document => exact absurd (h.metadata document hmetadata).2 hnew

theorem ArchiveState.Gathered.key_new (h : s.Gathered F C n) {path : String}
    (hnew : path ∉ s.paths) : path ∉ s.detached.map Prod.fst := by
  intro hmem
  obtain ⟨entry, hentry, heq⟩ := List.mem_map.mp hmem
  exact hnew (heq ▸ h.seen entry hentry)

theorem readLimited_within {read : Nat → Except String Bytes} {limit : Nat} {label : String}
    {bytes : Bytes} (h : readLimited F read limit label = .ok bytes) :
    F.byteLength bytes ≤ limit := by
  obtain ⟨got, _, h⟩ := bind_ok_iff.mp h
  split at h
  · cases h
  · rename_i hlength
    obtain rfl := Except.ok.inj h
    exact Nat.not_lt.mp hlength

/-- An entry that is kept beside the snapshot. -/
theorem gathered_detached (h : s.Gathered F C n) {path : String} {bytes : Bytes}
    (hnew : path ∉ s.paths) (hfile : isDirName path = false)
    (hpath : validateArchivePath path = .ok ()) (hsize : F.byteLength bytes ≤ maxArchiveEntryBytes)
    (hother : path ≠ "project.xml" ∧ path ≠ "metadata.xml") :
    ArchiveState.Gathered F C
      { s with
        resources := s.resources ++ [detachedResource F (path, bytes)]
        detached := SortedAssoc.insert path bytes s.detached
        paths := path :: s.paths } (n + 1) := by
  have hperm := perm_insert (h.key_new hnew) bytes
  have hforall : ∀ P : String × Bytes → Prop, P (path, bytes) → (∀ entry ∈ s.detached, P entry) →
      ∀ entry ∈ SortedAssoc.insert path bytes s.detached, P entry := by
    intro P hhead hrest entry hentry
    rcases mem_insert hentry with rfl | hentry
    · exact hhead
    · exact hrest entry hentry
  constructor
  · exact ⟨sorted_insert h.detached.sorted path bytes, hforall _ hfile h.detached.file,
      hforall _ hpath h.detached.path, hforall _ hsize h.detached.size,
      hforall _ hother h.detached.other⟩
  · exact hforall _ List.mem_cons_self fun entry hentry =>
      List.mem_cons_of_mem _ (h.seen entry hentry)
  · have hmap := hperm.map (detachedResource F)
    exact (List.perm_append_singleton _ _).trans ((h.resources.cons _).trans hmap.symm)
  · exact fun document hdocument =>
      ⟨(h.project document hdocument).1, List.mem_cons_of_mem _ (h.project document hdocument).2⟩
  · exact fun document hdocument =>
      ⟨(h.metadata document hdocument).1, List.mem_cons_of_mem _ (h.metadata document hdocument).2⟩
  · have hlength := hperm.length_eq
    have hcount := h.count
    rw [List.length_cons] at hlength
    simp only
    omega

theorem gathered_project (h : s.Gathered F C n) (hnew : "project.xml" ∉ s.paths)
    {document : XmlDocument} (hdocument : document.Parsed C) :
    ArchiveState.Gathered F C
      { s with project := some document, paths := "project.xml" :: s.paths } (n + 1) := by
  have hcount := h.count
  rw [h.project_none hnew] at hcount
  refine ⟨h.detached, fun entry hentry => List.mem_cons_of_mem _ (h.seen entry hentry), h.resources,
    ?_, ?_, ?_⟩
  · intro d hd
    obtain rfl := Option.some.inj hd
    exact ⟨hdocument, List.mem_cons_self⟩
  · exact fun d hd => ⟨(h.metadata d hd).1, List.mem_cons_of_mem _ (h.metadata d hd).2⟩
  · simp only [Option.toList_some, Option.toList_none, List.length_singleton,
      List.length_nil] at hcount ⊢
    omega

theorem gathered_metadata (h : s.Gathered F C n) (hnew : "metadata.xml" ∉ s.paths)
    {document : XmlDocument} (hdocument : document.Parsed C) :
    ArchiveState.Gathered F C
      { s with metadata := some document, paths := "metadata.xml" :: s.paths } (n + 1) := by
  have hcount := h.count
  rw [h.metadata_none hnew] at hcount
  refine ⟨h.detached, fun entry hentry => List.mem_cons_of_mem _ (h.seen entry hentry), h.resources,
    ?_, ?_, ?_⟩
  · exact fun d hd => ⟨(h.project d hd).1, List.mem_cons_of_mem _ (h.project d hd).2⟩
  · intro d hd
    obtain rfl := Option.some.inj hd
    exact ⟨hdocument, List.mem_cons_self⟩
  · simp only [Option.toList_some, Option.toList_none, List.length_singleton,
      List.length_nil] at hcount ⊢
    omega

theorem ArchiveState.Gathered.mono {m : Nat} (h : s.Gathered F C n) (hle : n ≤ m) :
    s.Gathered F C m :=
  ⟨h.detached, h.seen, h.resources, h.project, h.metadata, Nat.le_trans h.count hle⟩

theorem stays_project (hnone : s.project = none) (document : XmlDocument) (paths : List String) :
    ArchiveState.Stays F C limit { s with project := some document, paths := paths } ↔
      s.Stays F C limit ∧ document.Stays C F limit := by
  constructor
  · intro hs
    refine ⟨⟨?_, hs.metadata, hs.names⟩, hs.project document rfl⟩
    rw [hnone]
    exact nofun
  · rintro ⟨hs, hdocument⟩
    refine ⟨?_, hs.metadata, hs.names⟩
    intro d hd
    obtain rfl := Option.some.inj hd
    exact hdocument

theorem stays_metadata (hnone : s.metadata = none) (document : XmlDocument) (paths : List String) :
    ArchiveState.Stays F C limit { s with metadata := some document, paths := paths } ↔
      s.Stays F C limit ∧ document.Stays C F limit := by
  constructor
  · intro hs
    refine ⟨⟨hs.project, ?_, hs.names⟩, hs.metadata document rfl⟩
    rw [hnone]
    exact nofun
  · rintro ⟨hs, hdocument⟩
    refine ⟨hs.project, ?_, hs.names⟩
    intro d hd
    obtain rfl := Option.some.inj hd
    exact hdocument

theorem stays_detached {path : String} (hkey : path ∉ s.detached.map Prod.fst) (bytes : Bytes)
    (resources : List (ArchiveResource Hash)) (paths : List String) :
    ArchiveState.Stays F C limit
        { s with
          resources := resources
          detached := SortedAssoc.insert path bytes s.detached
          paths := paths } ↔
      s.Stays F C limit ∧ path.utf8ByteSize < 2 ^ 16 := by
  have hperm := perm_insert hkey bytes
  constructor
  · intro hs
    have hnames := fun e he => hs.names e (hperm.mem_iff.mpr he)
    obtain ⟨hhead, hrest⟩ := List.forall_mem_cons.mp hnames
    exact ⟨⟨hs.project, hs.metadata, hrest⟩, hhead⟩
  · rintro ⟨hs, hname⟩
    refine ⟨hs.project, hs.metadata, fun e he => ?_⟩
    rcases List.mem_cons.mp (hperm.mem_iff.mp he) with rfl | he
    · exact hname
    · exact hs.names e he

/-- An XML entry stays if its document does. -/
theorem entryStays_document (limit : Nat) (hR : ReadsXml F C R) {entry : ZipEntry Bytes} {bytes : Bytes}
    (hfile : isDirName entry.name = false) (hbytes : entryBytes F entry = .ok bytes)
    (hname : entry.name = "project.xml" ∨ entry.name = "metadata.xml") {document : XmlDocument}
    (hdocument : XmlDocument.parse F C R bytes ("DAWproject " ++ entry.name) = .ok document) :
    EntryStays F C R limit entry ↔ document.Stays C F limit := by
  have hshort : entry.name.utf8ByteSize < 2 ^ 16 := by
    rcases hname with h | h <;> rw [h] <;> decide
  rw [← xmlStays_iff hR hdocument, EntryStays, hbytes]
  constructor
  · intro h
    exact (h hfile).2 hname bytes rfl
  · intro h _
    refine ⟨hshort, fun _ xml hxml => ?_⟩
    obtain rfl := Except.ok.inj hxml
    exact h

/-- One entry: what is known after it, and whether what is gathered so far stays. -/
theorem gathered_readEntry (limit : Nat) (hR : ReadsXml F C R) {entry : ZipEntry Bytes}
    (h : s.Gathered F C n) (hread : readEntry F C R entry s = .ok s') :
    s'.Gathered F C (n + 1) ∧
      (s'.Stays F C limit ↔ s.Stays F C limit ∧ EntryStays F C R limit entry) := by
  rw [readEntry] at hread
  split at hread
  · rename_i hdir
    obtain rfl := Except.ok.inj hread
    refine ⟨h.mono (Nat.le_succ n), ?_⟩
    simp [EntryStays, hdir]
  rename_i hfile
  have hfile := Bool.eq_false_iff.mpr hfile
  obtain ⟨_, hpath, hread⟩ := bind_ok_iff.mp hread
  split at hread
  · cases hread
  rename_i hnew
  split at hread
  · cases hread
  obtain ⟨bytes, hbytes, hread⟩ := bind_ok_iff.mp hread
  have hwithin := readLimited_within hbytes
  rw [storeEntry] at hread
  split at hread
  · rename_i hname
    obtain ⟨document, hdocument, hread⟩ := bind_ok_iff.mp hread
    obtain rfl := Except.ok.inj hread
    have hentry := entryStays_document limit hR hfile hbytes (.inl hname)
      (by rw [hname]; exact hdocument)
    rw [hname] at hnew ⊢
    rw [hentry, stays_project (h.project_none hnew)]
    exact ⟨gathered_project h hnew (parsed_parse limit hR hdocument).1, Iff.rfl⟩
  rename_i hproject
  split at hread
  · rename_i hname
    obtain ⟨document, hdocument, hread⟩ := bind_ok_iff.mp hread
    obtain rfl := Except.ok.inj hread
    have hentry := entryStays_document limit hR hfile hbytes (.inr hname)
      (by rw [hname]; exact hdocument)
    rw [hname] at hnew ⊢
    rw [hentry, stays_metadata (h.metadata_none hnew)]
    exact ⟨gathered_metadata h hnew (parsed_parse limit hR hdocument).1, Iff.rfl⟩
  · rename_i hmetadata
    obtain rfl := Except.ok.inj hread
    have hlimit : entryLimit entry.name = maxArchiveEntryBytes :=
      if_neg (not_or.mpr ⟨hproject, hmetadata⟩)
    rw [hlimit] at hwithin
    have hentry : EntryStays F C R limit entry ↔ entry.name.utf8ByteSize < 2 ^ 16 := by
      simp [EntryStays, hfile, hproject, hmetadata]
    rw [hentry, stays_detached (h.key_new hnew)]
    exact ⟨gathered_detached h hnew hfile hpath hwithin ⟨hproject, hmetadata⟩, Iff.rfl⟩

theorem gathered_readEntries (limit : Nat) (hR : ReadsXml F C R) {entries : List (Except String (ZipEntry Bytes))}
    (h : s.Gathered F C n) (hread : readEntries F C R entries s = .ok s') :
    s'.Gathered F C (n + entries.length) ∧
      (s'.Stays F C limit ↔
        s.Stays F C limit ∧ ∀ entry, .ok entry ∈ entries → EntryStays F C R limit entry) := by
  induction entries generalizing s n with
  | nil =>
    obtain rfl := Except.ok.inj hread
    exact ⟨h, by simp⟩
  | cons entry rest ih =>
    cases entry with
    | error e => cases hread
    | ok entry =>
      obtain ⟨t, ht, hread⟩ := bind_ok_iff.mp hread
      obtain ⟨hgathered, hstays⟩ := gathered_readEntry limit hR h ht
      obtain ⟨hgathered', hstays'⟩ := ih hgathered hread
      refine ⟨hgathered'.mono (by rw [List.length_cons]; omega), ?_⟩
      rw [hstays', hstays, and_assoc]
      simp

end Gather

/-! The wrapper of an archive. -/

/-- The wrapper of the documents of an archive and of the entries beside them. -/
def archive {Bytes Hash : Type} (F : Formats Bytes Hash) (project : XmlDocument)
    (metadata : Option XmlDocument) (detached : List (String × Bytes)) : PortableSnapshot Hash :=
  ⟨2, .dawproject, project, metadata, detached.map (detachedResource F)⟩

section Wrapper
variable {Bytes Hash : Type} {F : Formats Bytes Hash} {C : Codecs Bytes Hash}
variable {project : XmlDocument} {metadata : Option XmlDocument} {detached : List (String × Bytes)}

theorem DetachedEntries.nodup (h : DetachedEntries F detached) :
    (detached.map Prod.fst).Nodup :=
  List.pairwise_map.mpr (h.sorted.imp fun hlt => ne_of_lt hlt)

/-- The entries in the order of their paths are those of the map. -/
theorem sortResources_detached (h : DetachedEntries F detached)
    {resources : List (ArchiveResource Hash)}
    (hperm : resources.Perm (detached.map (detachedResource F))) :
    sortResources resources = detached.map (detachedResource F) := by
  have hsorted : (detached.map (detachedResource F)).Pairwise fun left right => left.id ≤ right.id :=
    List.pairwise_map.mpr (h.sorted.imp fun hlt => le_of_lt hlt)
  have htotal : Std.Total fun left right : ArchiveResource Hash => left.id ≤ right.id :=
    ⟨fun left right => le_total left.id right.id⟩
  have htrans : IsTrans (ArchiveResource Hash) fun left right => left.id ≤ right.id :=
    ⟨fun _ _ _ hab hbc => le_trans hab hbc⟩
  have hpairwise := List.pairwise_insertionSort
    (fun left right : ArchiveResource Hash => left.id ≤ right.id) resources
  refine List.Perm.eq_of_pairwise ?_ hpairwise hsorted ((List.perm_insertionSort _ _).trans hperm)
  intro a b ha hb hab hba
  have ha := hperm.mem_iff.mp ((List.mem_insertionSort _).mp ha)
  obtain ⟨e, he, rfl⟩ := List.mem_map.mp ha
  obtain ⟨f, hf, rfl⟩ := List.mem_map.mp hb
  have hid : e.1 = f.1 := le_antisymm hab hba
  have hget := get?_of_mem h.sorted he
  rw [hid, get?_of_mem h.sorted hf] at hget
  rw [Prod.ext hid (Option.some.inj hget).symm]

/-- What is known of an archive that was read. -/
structure ParsedArchive (F : Formats Bytes Hash) (C : Codecs Bytes Hash) (project : XmlDocument)
    (metadata : Option XmlDocument) (detached : List (String × Bytes)) : Prop where
  project : project.Parsed C
  metadata : ∀ document ∈ metadata, document.Parsed C
  detached : DetachedEntries F detached

theorem XmlDocument.Parsed.reread {document : XmlDocument} (h : document.Parsed C) :
    document.reread.Parsed C :=
  ⟨kept_reread document.root h.kept, (validate_reread document.root).trans h.valid⟩

theorem ParsedArchive.reread (h : ParsedArchive F C project metadata detached) :
    ParsedArchive F C project.reread (metadata.map XmlDocument.reread) detached := by
  refine ⟨h.project.reread, fun document hdocument => ?_, h.detached⟩
  obtain ⟨d, hd, rfl⟩ := Option.map_eq_some_iff.mp hdocument
  exact (h.metadata d hd).reread

theorem ParsedArchive.storable (h : ParsedArchive F C project metadata detached) :
    (archive F project metadata detached).Storable where
  version := show 2 < 2 ^ 32 by decide
  project := h.project.ordered
  metadata document hdocument := (h.metadata document hdocument).ordered
  sizes resource hresource size hsize := by
    obtain ⟨entry, hentry, rfl⟩ := List.mem_map.mp hresource
    obtain rfl := Option.some.inj hsize
    exact Nat.lt_of_le_of_lt (h.detached.size entry hentry) (by decide)

theorem ParsedArchive.parsed (h : ParsedArchive F C project metadata detached)
    (hhash : ∀ bytes, C.parseHash (F.hashText (F.contentHash bytes)) = some (F.contentHash bytes)) :
    (archive F project metadata detached).Parsed F C := by
  refine ⟨h.storable, fun resource hresource hash hmem => ?_⟩
  obtain ⟨entry, hentry, rfl⟩ := List.mem_map.mp hresource
  obtain rfl := Option.some.inj hmem
  exact hhash entry.2

theorem validateResources_detached {rest : List (String × Bytes)} {seen : List String}
    (hpath : ∀ entry ∈ rest, validateArchivePath entry.1 = .ok ())
    (hnew : ∀ entry ∈ rest, entry.1 ∉ seen) (hnodup : (rest.map Prod.fst).Nodup) :
    validateResources 2 seen (rest.map (detachedResource F)) = .ok () := by
  induction rest generalizing seen with
  | nil => rfl
  | cons entry rest ih =>
    obtain ⟨hpath, hpaths⟩ := List.forall_mem_cons.mp hpath
    obtain ⟨hnew, hnews⟩ := List.forall_mem_cons.mp hnew
    obtain ⟨hother, hnodup⟩ := List.nodup_cons.mp hnodup
    rw [List.map_cons, validateResources]
    refine bind_ok_iff.mpr ⟨(), hpath, ?_⟩
    have hseen : ¬ (detachedResource F entry).id ∈ seen := hnew
    rw [if_neg hseen]
    refine bind_ok_iff.mpr ⟨(), rfl, ih hpaths ?_ hnodup⟩
    intro e he hmem
    rcases List.mem_cons.mp hmem with heq | hmem
    · exact hother (List.mem_map.mpr ⟨e, he, heq⟩)
    · exact hnews e he hmem

theorem ParsedArchive.validate (h : ParsedArchive F C project metadata detached) :
    (archive F project metadata detached).validate C = .ok () := by
  have hversion : ¬ ¬ ((1 : Nat) ≤ 2 ∧ (2 : Nat) ≤ 2) := by decide
  have hformat : ¬ (ProjectFormat.dawproject = .auru ∨ ProjectFormat.dawproject = .bitwigProject) := by
    decide
  have hresources : validateResources 2 [] (detached.map (detachedResource F)) = .ok () :=
    validateResources_detached h.detached.path (fun _ _ => List.not_mem_nil) h.detached.nodup
  have hmetadata : (metadata.map (XmlDocument.validate C.toCharClasses)).getD (.ok ()) = .ok () := by
    cases metadata with
    | none => rfl
    | some document => exact (h.metadata document rfl).valid
  rw [archive, PortableSnapshot.validate, if_neg hversion, if_neg hformat]
  refine bind_ok_iff.mpr ⟨(), h.project.valid, bind_ok_iff.mpr ⟨(), hmetadata, hresources⟩⟩

end Wrapper

/-! Writing an archive. -/

/-- The documents of an archive as entries. -/
def xmlEntries {Bytes : Type} (project : Bytes) (metadata : Option Bytes) : ArchiveEntries Bytes :=
  ("project.xml", project) :: metadata.toList.map fun xml => ("metadata.xml", xml)

section Write
variable {Bytes Hash : Type} {F : Formats Bytes Hash} {C : Codecs Bytes Hash}
variable {R : SourceCodecs Bytes}
variable {project : XmlDocument} {metadata : Option XmlDocument} {detached : List (String × Bytes)}

theorem zipResult_ok_iff {A : Type} {r : Except String A} {a : A} :
    zipResult r = .ok a ↔ r = .ok a := by
  cases r with
  | ok b => simp [zipResult]
  | error e => simp [zipResult, projectFormatError]

theorem ioResult_ok_iff {A : Type} {r : Except String A} {a : A} :
    ioResult r = .ok a ↔ r = .ok a := by
  cases r with
  | ok b => simp [ioResult]
  | error e => simp [ioResult]

theorem writeDocument_iff (hZ : ReadsZip F C R) {name : String} {document : XmlDocument}
    {written w : ArchiveEntries Bytes} {xml : Bytes} (hnew : name ∉ written.map Prod.fst)
    (hshort : name.utf8ByteSize < 2 ^ 16) (hxml : document.toXml C = .ok xml) :
    writeDocument C name document written = .ok w ↔
      C.zipWrite written name xml = .ok () ∧ w = written ++ [(name, xml)] := by
  have hstart := (hZ.started written name hnew).mpr hshort
  rw [writeDocument, hstart, hxml]
  constructor
  · intro h
    obtain ⟨_, _, h⟩ := bind_ok_iff.mp h
    obtain ⟨_, hx, h⟩ := bind_ok_iff.mp h
    obtain rfl := Except.ok.inj hx
    obtain ⟨_, hwrite, h⟩ := bind_ok_iff.mp h
    exact ⟨ioResult_ok_iff.mp hwrite, (Except.ok.inj h).symm⟩
  · rintro ⟨hwrite, rfl⟩
    exact bind_ok_iff.mpr ⟨(), rfl, bind_ok_iff.mpr ⟨xml, rfl,
      bind_ok_iff.mpr ⟨(), ioResult_ok_iff.mpr hwrite, rfl⟩⟩⟩

theorem nodup_xmlEntries (h : DetachedEntries F detached) (px : Bytes) (mx : Option Bytes) :
    ((xmlEntries px mx ++ detached).map Prod.fst).Nodup := by
  have hxml : ((xmlEntries px mx).map Prod.fst).Nodup := by
    cases mx <;> simp [xmlEntries]
  rw [List.map_append]
  refine List.Nodup.append hxml h.nodup fun name hname hmem => ?_
  obtain ⟨entry, hentry, rfl⟩ := List.mem_map.mp hmem
  obtain ⟨hproject, hmetadata⟩ := h.other entry hentry
  cases mx <;> simp_all [xmlEntries]

variable [DecidableEq Hash]

theorem hydratedEntry_detached {entry : String × Bytes} (hget : get? detached entry.1 = some entry.2)
    (hsize : F.byteLength entry.2 ≤ maxArchiveEntryBytes) :
    hydratedEntry F C detached (detachedResource F entry) = .ok entry.2 := by
  have hdata : entryData C detached (detachedResource F entry) = .ok entry.2 := by
    rw [entryData]
    simp only [detachedResource, hget]
  have hcheck : checkEntry F (detachedResource F entry) entry.2 = .ok () := by
    rw [checkEntry, if_neg (Nat.not_lt.mpr hsize)]
    simp [detachedResource]
  rw [hydratedEntry, hdata]
  exact bind_ok_iff.mpr ⟨entry.2, rfl, bind_ok_iff.mpr ⟨(), hcheck, rfl⟩⟩

theorem writeResources_iff (hZ : ReadsZip F C R) {rest : List (String × Bytes)}
    {written w : ArchiveEntries Bytes}
    (hget : ∀ entry ∈ rest, get? detached entry.1 = some entry.2)
    (hpath : ∀ entry ∈ rest, validateArchivePath entry.1 = .ok ())
    (hsize : ∀ entry ∈ rest, F.byteLength entry.2 ≤ maxArchiveEntryBytes)
    (hnodup : ((written ++ rest).map Prod.fst).Nodup) :
    writeResources F C detached (rest.map (detachedResource F)) written = .ok w ↔
      (∀ entry ∈ rest, entry.1.utf8ByteSize < 2 ^ 16) ∧ w = written ++ rest := by
  induction rest generalizing written with
  | nil => simp [writeResources, eq_comm]
  | cons entry rest ih =>
    obtain ⟨hget, hgets⟩ := List.forall_mem_cons.mp hget
    obtain ⟨hpath, hpaths⟩ := List.forall_mem_cons.mp hpath
    obtain ⟨hsize, hsizes⟩ := List.forall_mem_cons.mp hsize
    have hnew : entry.1 ∉ written.map Prod.fst := by
      intro hmem
      rw [List.map_append, List.map_cons, List.nodup_append] at hnodup
      exact hnodup.2.2 _ hmem _ List.mem_cons_self rfl
    have happend : written ++ entry :: rest = (written ++ [entry]) ++ rest := by simp
    rw [happend] at hnodup ⊢
    have ih := ih hgets hpaths hsizes hnodup
    have hstart := hZ.started written entry.1 hnew
    have hdata := hydratedEntry_detached (C := C) hget hsize
    have hone : ∀ t, writeResource F C detached (detachedResource F entry) written = .ok t ↔
        entry.1.utf8ByteSize < 2 ^ 16 ∧ t = written ++ [entry] := by
      intro t
      rw [writeResource, hdata, ← hstart]
      constructor
      · intro h
        obtain ⟨_, _, h⟩ := bind_ok_iff.mp h
        obtain ⟨_, hx, h⟩ := bind_ok_iff.mp h
        obtain rfl := Except.ok.inj hx
        obtain ⟨_, hopened, h⟩ := bind_ok_iff.mp h
        obtain ⟨_, _, h⟩ := bind_ok_iff.mp h
        exact ⟨zipResult_ok_iff.mp hopened, (Except.ok.inj h).symm⟩
      · rintro ⟨hopened, rfl⟩
        refine bind_ok_iff.mpr ⟨(), hpath, bind_ok_iff.mpr ⟨entry.2, rfl,
          bind_ok_iff.mpr ⟨(), zipResult_ok_iff.mpr hopened, bind_ok_iff.mpr ⟨(), ?_, rfl⟩⟩⟩⟩
        exact ioResult_ok_iff.mpr (hZ.stored written entry.1 entry.2 hsize)
    rw [List.map_cons, writeResources, List.forall_mem_cons]
    constructor
    · intro h
      obtain ⟨t, ht, h⟩ := bind_ok_iff.mp h
      obtain ⟨hshort, rfl⟩ := (hone t).mp ht
      obtain ⟨hrest, rfl⟩ := ih.mp h
      exact ⟨⟨hshort, hrest⟩, rfl⟩
    · rintro ⟨⟨hshort, hrest⟩, rfl⟩
      exact bind_ok_iff.mpr ⟨_, (hone _).mpr ⟨hshort, rfl⟩, ih.mpr ⟨hrest, rfl⟩⟩

omit [DecidableEq Hash] in
theorem zipFinish_ok_iff (written : List (String × Bytes)) {bytes : Bytes} :
    (match C.zipFinish written with
      | .ok bytes => return bytes
      | .error e => projectFormatError ("finalize DAWproject ZIP: " ++ e) : Except String Bytes) =
        .ok bytes ↔ C.zipFinish written = .ok bytes := by
  cases C.zipFinish written with
  | ok b => simp [pure, Except.pure]
  | error e => simp [projectFormatError]

/-- What an archive is restored to, if it is. -/
theorem decodeDawproject_iff (hZ : ReadsZip F C R)
    (h : ParsedArchive F C project metadata detached) {px : Bytes} {mx : Option Bytes}
    (hpx : project.toXml C = .ok px)
    (hmx : Option.Rel (fun document xml => document.toXml C = .ok xml) metadata mx)
    (bytes : Bytes) :
    decodeDawproject F C (archive F project metadata detached) detached = .ok bytes ↔
      (C.zipWrite [] "project.xml" px = .ok () ∧
        (∀ xml ∈ mx, C.zipWrite [("project.xml", px)] "metadata.xml" xml = .ok ()) ∧
          ∀ entry ∈ detached, entry.1.utf8ByteSize < 2 ^ 16) ∧
        C.zipFinish (xmlEntries px mx ++ detached) = .ok bytes := by
  have hformat : ¬ (archive F project metadata detached).format ≠ .dawproject := not_not.mpr rfl
  have hproject : ∀ w, writeDocument C "project.xml" project [] = .ok w ↔
      C.zipWrite [] "project.xml" px = .ok () ∧ w = [("project.xml", px)] := fun w =>
    writeDocument_iff hZ List.not_mem_nil (by decide) hpx
  have hresources : ∀ w, writeResources F C detached (detached.map (detachedResource F))
      (xmlEntries px mx) = .ok w ↔
        (∀ entry ∈ detached, entry.1.utf8ByteSize < 2 ^ 16) ∧ w = xmlEntries px mx ++ detached :=
    fun w => writeResources_iff hZ (fun entry he => get?_of_mem h.detached.sorted he)
      h.detached.path h.detached.size (nodup_xmlEntries h.detached px mx)
  rw [decodeDawproject, if_neg hformat]
  cases hmx with
  | none =>
    constructor
    · intro hdecode
      obtain ⟨w, hw, hdecode⟩ := bind_ok_iff.mp hdecode
      obtain ⟨hwrite, rfl⟩ := (hproject w).mp hw
      obtain ⟨w, hw, hdecode⟩ := bind_ok_iff.mp hdecode
      obtain rfl := Except.ok.inj hw
      obtain ⟨w, hw, hdecode⟩ := bind_ok_iff.mp hdecode
      obtain ⟨hshort, rfl⟩ := (hresources w).mp hw
      exact ⟨⟨hwrite, fun _ h => absurd h (Option.not_mem_none _), hshort⟩, (zipFinish_ok_iff _).mp hdecode⟩
    · rintro ⟨⟨hwrite, _, hshort⟩, hbytes⟩
      exact bind_ok_iff.mpr ⟨_, (hproject _).mpr ⟨hwrite, rfl⟩, bind_ok_iff.mpr ⟨_, rfl,
        bind_ok_iff.mpr ⟨_, (hresources _).mpr ⟨hshort, rfl⟩, (zipFinish_ok_iff _).mpr hbytes⟩⟩⟩
  | some hmx =>
    rename_i document xml
    have hmetadata : ∀ w, writeDocument C "metadata.xml" document [("project.xml", px)] = .ok w ↔
        C.zipWrite [("project.xml", px)] "metadata.xml" xml = .ok () ∧
          w = xmlEntries px (some xml) := fun w =>
      writeDocument_iff hZ (by simp) (by decide) hmx
    constructor
    · intro hdecode
      obtain ⟨w, hw, hdecode⟩ := bind_ok_iff.mp hdecode
      obtain ⟨hwrite, rfl⟩ := (hproject w).mp hw
      obtain ⟨w, hw, hdecode⟩ := bind_ok_iff.mp hdecode
      obtain ⟨hwrite', rfl⟩ := (hmetadata w).mp hw
      obtain ⟨w, hw, hdecode⟩ := bind_ok_iff.mp hdecode
      obtain ⟨hshort, rfl⟩ := (hresources w).mp hw
      refine ⟨⟨hwrite, fun x hx => ?_, hshort⟩, (zipFinish_ok_iff _).mp hdecode⟩
      obtain rfl := Option.some.inj hx
      exact hwrite'
    · rintro ⟨⟨hwrite, hwrite', hshort⟩, hbytes⟩
      exact bind_ok_iff.mpr ⟨_, (hproject _).mpr ⟨hwrite, rfl⟩,
        bind_ok_iff.mpr ⟨_, (hmetadata _).mpr ⟨hwrite' xml rfl, rfl⟩,
          bind_ok_iff.mpr ⟨_, (hresources _).mpr ⟨hshort, rfl⟩, (zipFinish_ok_iff _).mpr hbytes⟩⟩⟩

end Write

/-! Reading it again. -/

section Read
variable {Bytes Hash : Type} {F : Formats Bytes Hash} {C : Codecs Bytes Hash}
variable {R : SourceCodecs Bytes} {s s' : ArchiveState Bytes Hash}
variable {project : XmlDocument} {metadata : Option XmlDocument} {detached : List (String × Bytes)}

/-- An entry as it is listed in an archive that it was written to. -/
def ListedAs (F : Formats Bytes Hash) (entry : ZipEntry Bytes) (w : String × Bytes) : Prop :=
  entry.name = w.1 ∧ entry.size = F.byteLength w.2 ∧ Streams F entry.read w.2

theorem readEntry_listedAs {entry : ZipEntry Bytes} {w : String × Bytes} (h : ListedAs F entry w)
    (hfile : isDirName w.1 = false) (hpath : validateArchivePath w.1 = .ok ())
    (hnew : w.1 ∉ s.paths) :
    readEntry F C R entry s = .ok s' ↔
      F.byteLength w.2 ≤ entryLimit w.1 ∧ storeEntry F C R w.1 w.2 s = .ok s' := by
  obtain ⟨hname, hsize, hstreams⟩ := h
  have hdir : ¬ isDirName w.1 = true := Bool.eq_false_iff.mp hfile
  have hbytes : ∀ b, entryBytes F entry = .ok b ↔
      F.byteLength w.2 ≤ entryLimit w.1 ∧ b = w.2 := by
    intro b
    rw [entryBytes, hstreams.readLimited, hname]
  rw [readEntry, hname, if_neg hdir, hpath, if_neg hnew, hsize]
  by_cases hlength : F.byteLength w.2 ≤ entryLimit w.1
  · rw [if_neg (Nat.not_lt.mpr hlength), (hbytes w.2).mpr ⟨hlength, rfl⟩]
    exact ⟨fun h => ⟨hlength, h⟩, fun h => h.2⟩
  · rw [if_pos (Nat.not_le.mp hlength)]
    constructor
    · intro h
      cases h
    · rintro ⟨hle, _⟩
      exact absurd hle hlength

/-- The entries beside the documents, read in order. -/
theorem readEntries_detached {entries : List (ZipEntry Bytes)} (done : List (String × Bytes))
    {rest : List (String × Bytes)}
    (hlists : List.Forall₂ (ListedAs F) entries rest) (h : DetachedEntries F (done ++ rest))
    (hresources : s.resources = done.map (detachedResource F)) (hdetached : s.detached = done)
    (hnew : ∀ entry ∈ rest, entry.1 ∉ s.paths) :
    ∃ paths, readEntries F C R (entries.map .ok) s =
      .ok ⟨s.project, s.metadata, (done ++ rest).map (detachedResource F), done ++ rest, paths⟩ := by
  induction hlists generalizing s done with
  | nil =>
    refine ⟨s.paths, ?_⟩
    rw [List.append_nil, ← hresources, ← hdetached]
    rfl
  | @cons entry w entries rest hentry _ ih =>
    have hw : w ∈ done ++ w :: rest := List.mem_append_right _ List.mem_cons_self
    have hother := h.other w hw
    obtain ⟨hnew, hnews⟩ := List.forall_mem_cons.mp hnew
    have hlimit : entryLimit w.1 = maxArchiveEntryBytes := if_neg (not_or.mpr hother)
    have hlast : ∀ e ∈ done, e.1 < w.1 := fun e he =>
      (List.pairwise_append.mp h.sorted).2.2 e he w List.mem_cons_self
    have hrest : ∀ e ∈ rest, w.1 < e.1 :=
      (List.pairwise_cons.mp (List.pairwise_append.mp h.sorted).2.1).1
    have hread : readEntry F C R entry s = .ok ⟨s.project, s.metadata,
        (done ++ [w]).map (detachedResource F), done ++ [w], w.1 :: s.paths⟩ := by
      apply (readEntry_listedAs hentry (h.file w hw) (h.path w hw) hnew).mpr
      refine ⟨by rw [hlimit]; exact h.size w hw, ?_⟩
      rw [storeEntry, if_neg hother.1, if_neg hother.2, hresources, hdetached, insert_last hlast,
        List.map_append]
      rfl
    rw [List.append_cons] at h ⊢
    obtain ⟨paths, hpaths⟩ := ih (done ++ [w])
      (s := ⟨s.project, s.metadata, (done ++ [w]).map (detachedResource F), done ++ [w],
        w.1 :: s.paths⟩) h rfl rfl (by
      intro e he hmem
      rcases List.mem_cons.mp hmem with heq | hmem
      · exact absurd heq (hrest e he).ne'
      · exact hnews e he hmem)
    refine ⟨paths, ?_⟩
    rw [List.map_cons, readEntries, hread]
    exact hpaths

theorem storeEntry_project {px : Bytes} (h : project.Parsed C)
    (hread : R.readXml px = delivered (.decl :: project.root.events)) :
    storeEntry F C R "project.xml" px s = .ok s' ↔ F.byteLength px ≤ maxXmlBytes ∧
      s' = { s with project := some project.reread, paths := "project.xml" :: s.paths } := by
  rw [storeEntry, if_pos rfl]
  constructor
  · intro hstore
    obtain ⟨document, hdocument, hstore⟩ := bind_ok_iff.mp hstore
    obtain ⟨hlength, rfl⟩ := (h.parse hread _ _).mp hdocument
    exact ⟨hlength, (Except.ok.inj hstore).symm⟩
  · rintro ⟨hlength, rfl⟩
    exact bind_ok_iff.mpr ⟨project.reread, (h.parse hread _ _).mpr ⟨hlength, rfl⟩, rfl⟩

theorem storeEntry_metadata {mx : Bytes} {document : XmlDocument} (h : document.Parsed C)
    (hread : R.readXml mx = delivered (.decl :: document.root.events)) :
    storeEntry F C R "metadata.xml" mx s = .ok s' ↔ F.byteLength mx ≤ maxXmlBytes ∧
      s' = { s with metadata := some document.reread, paths := "metadata.xml" :: s.paths } := by
  have hname : ¬ "metadata.xml" = "project.xml" := by decide
  rw [storeEntry, if_neg hname, if_pos rfl]
  constructor
  · intro hstore
    obtain ⟨again, hagain, hstore⟩ := bind_ok_iff.mp hstore
    obtain ⟨hlength, rfl⟩ := (h.parse hread _ _).mp hagain
    exact ⟨hlength, (Except.ok.inj hstore).symm⟩
  · rintro ⟨hlength, rfl⟩
    exact bind_ok_iff.mpr ⟨document.reread, (h.parse hread _ _).mpr ⟨hlength, rfl⟩, rfl⟩

/-- A document and what was written of it. -/
def Writes (C : Codecs Bytes Hash) (R : SourceCodecs Bytes) (document : XmlDocument) (xml : Bytes) :
    Prop :=
  document.toXml C = .ok xml ∧ R.readXml xml = delivered (.decl :: document.root.events)

/-- The entries of an archive that was restored: they are read exactly if its documents are not too
long. -/
theorem readEntries_written (h : ParsedArchive F C project metadata detached)
    {px : Bytes} {mx : Option Bytes} (hpx : Writes C R project px)
    (hmx : Option.Rel (Writes C R) metadata mx) {entries : List (ZipEntry Bytes)}
    (hlists : List.Forall₂ (ListedAs F) entries (xmlEntries px mx ++ detached)) :
    (∀ t, readEntries F C R (entries.map .ok) ArchiveState.initial = .ok t →
      F.byteLength px ≤ maxXmlBytes ∧ ∀ xml ∈ mx, F.byteLength xml ≤ maxXmlBytes) ∧
    (F.byteLength px ≤ maxXmlBytes → (∀ xml ∈ mx, F.byteLength xml ≤ maxXmlBytes) →
      ∃ paths, readEntries F C R (entries.map .ok) ArchiveState.initial =
        .ok ⟨some project.reread, metadata.map XmlDocument.reread,
          detached.map (detachedResource F), detached, paths⟩) := by
  have hfile : isDirName "project.xml" = false ∧ isDirName "metadata.xml" = false := by
    constructor <;> decide
  have hpath : validateArchivePath "project.xml" = .ok () ∧
      validateArchivePath "metadata.xml" = .ok () := by
    constructor <;> decide
  have hother : ∀ entry ∈ detached, ∀ paths : List String,
      paths = ["project.xml"] ∨ paths = ["metadata.xml", "project.xml"] → entry.1 ∉ paths := by
    intro entry hentry paths hpaths
    have hnames := h.detached.other entry hentry
    rcases hpaths with rfl | rfl <;> simp [hnames]
  obtain _ | @⟨first, _, entries, _, hfirst, hlists⟩ := hlists
  have hproject : ∀ t, readEntry F C R first ArchiveState.initial = .ok t ↔
      F.byteLength px ≤ maxXmlBytes ∧
        t = ⟨some project.reread, none, [], [], ["project.xml"]⟩ := by
    intro t
    rw [readEntry_listedAs hfirst hfile.1 hpath.1 List.not_mem_nil, storeEntry_project h.project hpx.2]
    exact ⟨fun h => h.2, fun h => ⟨h.1, h⟩⟩
  rw [List.map_cons, readEntries]
  cases hmx with
  | none =>
    have hrest := readEntries_detached (C := C) (R := R) []
      (s := ⟨some project.reread, none, [], [], ["project.xml"]⟩) hlists h.detached rfl rfl
      fun entry hentry => hother entry hentry _ (.inl rfl)
    obtain ⟨paths, hrest⟩ := hrest
    refine ⟨fun t ht => ?_, fun hlength _ => ⟨paths, ?_⟩⟩
    · obtain ⟨u, hu, _⟩ := bind_ok_iff.mp ht
      exact ⟨((hproject u).mp hu).1, nofun⟩
    · exact bind_ok_iff.mpr ⟨_, (hproject _).mpr ⟨hlength, rfl⟩, hrest⟩
  | some hmx =>
    rename_i document xml
    obtain _ | @⟨second, _, entries, _, hsecond, hlists⟩ := hlists
    have hmetadata : ∀ t, readEntry F C R second
        ⟨some project.reread, none, [], [], ["project.xml"]⟩ = .ok t ↔
          F.byteLength xml ≤ maxXmlBytes ∧ t =
            ⟨some project.reread, some document.reread, [], [], ["metadata.xml", "project.xml"]⟩ := by
      intro t
      have hnew : "metadata.xml" ∉ ["project.xml"] := by decide
      rw [readEntry_listedAs hsecond hfile.2 hpath.2 hnew,
        storeEntry_metadata (h.metadata document rfl) hmx.2]
      exact ⟨fun h => h.2, fun h => ⟨h.1, h⟩⟩
    have hrest := readEntries_detached (C := C) (R := R) []
      (s := ⟨some project.reread, some document.reread, [], [], ["metadata.xml", "project.xml"]⟩)
      hlists h.detached rfl rfl fun entry hentry => hother entry hentry _ (.inr rfl)
    obtain ⟨paths, hrest⟩ := hrest
    refine ⟨fun t ht => ?_, fun hlength hlengths => ⟨paths, ?_⟩⟩
    · obtain ⟨u, hu, ht⟩ := bind_ok_iff.mp ht
      obtain ⟨hlength, rfl⟩ := (hproject u).mp hu
      rw [List.map_cons, readEntries] at ht
      obtain ⟨u, hu, _⟩ := bind_ok_iff.mp ht
      refine ⟨hlength, fun x hx => ?_⟩
      obtain rfl := Option.some.inj hx
      exact ((hmetadata u).mp hu).1
    · refine bind_ok_iff.mpr ⟨_, (hproject _).mpr ⟨hlength, rfl⟩, ?_⟩
      rw [List.map_cons, readEntries]
      exact bind_ok_iff.mpr ⟨_, (hmetadata _).mpr ⟨hlengths xml rfl, rfl⟩, hrest⟩

end Read

/-! There and back. -/

section Returns
variable {Bytes Hash : Type} {F : Formats Bytes Hash} {C : Codecs Bytes Hash}
variable {R : SourceCodecs Bytes} {blob : Value → Except String Bytes} {limit : Nat}
variable {project : XmlDocument} {metadata : Option XmlDocument} {detached : List (String × Bytes)}

/-- What an archive is taken for. -/
theorem fromSourceBytes_dawproject_iff {source : Bytes} {snapshot : ProjectSnapshot Bytes} :
    ProjectSnapshot.fromSourceBytes F C R blob .dawproject source = .ok snapshot ↔
      ∃ entries s project bytes, R.zipEntries source = .ok entries ∧
        entries.length ≤ maxArchiveEntries ∧
          readEntries F C R entries ArchiveState.initial = .ok s ∧ s.project = some project ∧
            blob (PortableSnapshot.toValue F ⟨2, .dawproject, project, s.metadata,
              sortResources s.resources⟩) = .ok bytes ∧
                snapshot = ⟨.dawproject, bytes, s.detached⟩ := by
  constructor
  · intro h
    obtain ⟨⟨value, detached⟩, hvalue, h⟩ := bind_ok_iff.mp h
    obtain ⟨⟨p, kept⟩, hp, hvalue⟩ := bind_ok_iff.mp hvalue
    cases hvalue
    rw [encodeDawproject] at hp
    cases hentries : R.zipEntries source with
    | error e =>
      rw [hentries] at hp
      cases hp
    | ok entries =>
      rw [hentries] at hp
      simp only at hp
      split at hp
      · cases hp
      rename_i hlength
      obtain ⟨s, hs, hp⟩ := bind_ok_iff.mp hp
      cases hproject : s.project with
      | none =>
        rw [hproject] at hp
        cases hp
      | some project =>
        rw [hproject] at hp
        cases hp
        obtain ⟨bytes, hbytes, h⟩ := bind_ok_iff.mp h
        exact ⟨entries, s, project, bytes, rfl, Nat.not_lt.mp hlength, hs, hproject, hbytes,
          (Except.ok.inj h).symm⟩
  · rintro ⟨entries, s, project, bytes, hentries, hlength, hs, hproject, hbytes, rfl⟩
    refine bind_ok_iff.mpr ⟨_, bind_ok_iff.mpr ⟨(⟨2, .dawproject, project, s.metadata,
      sortResources s.resources⟩, s.detached), ?_, rfl⟩, bind_ok_iff.mpr ⟨bytes, hbytes, rfl⟩⟩
    rw [encodeDawproject, hentries]
    simp only
    rw [if_neg (Nat.not_lt.mpr hlength)]
    refine bind_ok_iff.mpr ⟨s, hs, ?_⟩
    rw [hproject]
    rfl

theorem exists_writes (hR : ReadsXml F C R) (h : ∀ document ∈ metadata, document.Parsed C) :
    ∃ mx, Option.Rel (Writes C R) metadata mx := by
  cases metadata with
  | none => exact ⟨none, .none⟩
  | some document =>
    obtain ⟨xml, hxml⟩ := (h document rfl).toXml hR
    exact ⟨some xml, .some hxml⟩

/-- What a snapshot of an archive is restored to. -/
theorem restoreBytes_archive [DecidableEq Hash] (hF : F.ReadsBlobs blob limit)
    (hhash : ∀ bytes, C.parseHash (F.hashText (F.contentHash bytes)) = some (F.contentHash bytes))
    (h : ParsedArchive F C project metadata detached) {bytes : Bytes}
    (hbytes : blob ((archive F project metadata detached).toValue F) = .ok bytes)
    (hdepth : ((archive F project metadata detached).toValue F).depth ≤ limit) :
    (ProjectSnapshot.mk .dawproject bytes detached).restoreBytes F C =
      decodeDawproject F C (archive F project metadata detached) detached := by
  have hparsed := h.parsed hhash
  obtain ⟨v, hv, hwrapper⟩ := hF.read_portable (C := C) hparsed.storable hparsed.hashes hbytes hdepth
  simp only [ProjectSnapshot.restoreBytes, hv, hwrapper, serdeResult, h.validate, bind, Except.bind]

/-- What was restored of an archive is taken for the archive of the trees that are read again. -/
theorem fromSourceBytes_restored (hZ : ReadsZip F C R)
    (h : ParsedArchive F C project metadata detached)
    (hcount : 1 + metadata.toList.length + detached.length ≤ maxArchiveEntries)
    {px : Bytes} {mx : Option Bytes} (hpx : Writes C R project px)
    (hmx : Option.Rel (Writes C R) metadata mx) {restored : Bytes}
    (hfinish : C.zipFinish (xmlEntries px mx ++ detached) = .ok restored)
    (snapshot : ProjectSnapshot Bytes) :
    ProjectSnapshot.fromSourceBytes F C R blob .dawproject restored = .ok snapshot ↔
      (F.byteLength px ≤ maxXmlBytes ∧ ∀ xml ∈ mx, F.byteLength xml ≤ maxXmlBytes) ∧
        ∃ bytes, blob ((archive F project.reread (metadata.map XmlDocument.reread)
          detached).toValue F) = .ok bytes ∧ snapshot = ⟨.dawproject, bytes, detached⟩ := by
  obtain ⟨entries, hentries, hlists⟩ :=
    hZ.listed _ restored (nodup_xmlEntries h.detached px mx) hfinish
  obtain ⟨hread, hreads⟩ := readEntries_written h hpx hmx hlists
  have hlength : (entries.map .ok : List (Except String (ZipEntry Bytes))).length ≤
      maxArchiveEntries := by
    have hsame := hlists.length_eq
    have hxml : (xmlEntries px mx).length = 1 + metadata.toList.length := by
      cases hmx <;> simp [xmlEntries]
    rw [List.length_append, hxml] at hsame
    rw [List.length_map]
    omega
  have hsort := sortResources_detached h.detached
    (List.Perm.refl (detached.map (detachedResource F)))
  rw [fromSourceBytes_dawproject_iff]
  constructor
  · rintro ⟨entries', s, project', bytes, hentries', _, hs, hproject, hbytes, rfl⟩
    rw [hentries] at hentries'
    obtain rfl := Except.ok.inj hentries'
    have hlengths := hread s hs
    obtain ⟨paths, hpaths⟩ := hreads hlengths.1 hlengths.2
    rw [hpaths] at hs
    obtain rfl := Except.ok.inj hs
    obtain rfl := Option.some.inj hproject
    simp only [hsort] at hbytes
    exact ⟨hlengths, bytes, hbytes, rfl⟩
  · rintro ⟨hlengths, bytes, hbytes, rfl⟩
    obtain ⟨paths, hpaths⟩ := hreads hlengths.1 hlengths.2
    refine ⟨_, _, project.reread, bytes, hentries, hlength, hpaths, rfl, ?_, rfl⟩
    simp only [hsort]
    exact hbytes

/-- Documents that stay as they are make the same snapshot. -/
theorem ArchiveState.Stays.archive_reread {resources : List (ArchiveResource Hash)}
    {paths : List String}
    (h : ArchiveState.Stays F C limit ⟨some project, metadata, resources, detached, paths⟩) :
    archive F project.reread (metadata.map XmlDocument.reread) detached =
      archive F project metadata detached := by
  have hmetadata : metadata.map XmlDocument.reread = metadata := by
    cases metadata with
    | none => rfl
    | some document =>
      rw [Option.map_some, document.reread_eq_iff.mpr (h.metadata document rfl).1.1]
  rw [project.reread_eq_iff.mpr (h.project project rfl).1.1, hmetadata]

theorem size_xmlEntries (h : DetachedEntries F detached) {px : Bytes} {mx : Option Bytes}
    (hproject : F.byteLength px ≤ maxXmlBytes)
    (hmetadata : ∀ xml ∈ mx, F.byteLength xml ≤ maxXmlBytes) :
    ∀ entry ∈ xmlEntries px mx ++ detached, F.byteLength entry.2 ≤ maxArchiveEntryBytes := by
  have hxmlBytes : maxXmlBytes ≤ maxArchiveEntryBytes := by decide
  intro entry hentry
  rcases List.mem_append.mp hentry with hentry | hentry
  · rcases List.mem_cons.mp hentry with rfl | hentry
    · exact Nat.le_trans hproject hxmlBytes
    · obtain ⟨xml, hxml, rfl⟩ := List.mem_map.mp hentry
      exact Nat.le_trans (hmetadata xml (Option.mem_toList.mp hxml)) hxmlBytes
  · exact h.size entry hentry

/-- An archive leads back to its snapshot exactly if each of its entries stays. -/
theorem archive_returns_iff [DecidableEq Hash] (hF : F.ReadsBlobs blob limit) (hR : ReadsXml F C R)
    (hZ : ReadsZip F C R)
    (hhash : ∀ bytes, C.parseHash (F.hashText (F.contentHash bytes)) = some (F.contentHash bytes))
    {source : Bytes} {snapshot : ProjectSnapshot Bytes}
    (h : ProjectSnapshot.fromSourceBytes F C R blob .dawproject source = .ok snapshot) :
    snapshot.Returns F C R blob ↔ ∀ entries, R.zipEntries source = .ok entries →
      ∀ entry, .ok entry ∈ entries → EntryStays F C R limit entry := by
  obtain ⟨entries, ⟨_, metadata, resources, detached, paths⟩, project, bytes, hentries, hlength, hs,
    rfl, hbytes, rfl⟩ := fromSourceBytes_dawproject_iff.mp h
  obtain ⟨hgathered, hstays⟩ := gathered_readEntries limit hR gathered_initial hs
  have hparsed : ParsedArchive F C project metadata detached :=
    ⟨(hgathered.project project rfl).1, fun d hd => (hgathered.metadata d hd).1, hgathered.detached⟩
  have hcount : 1 + metadata.toList.length + detached.length ≤ maxArchiveEntries := by
    have hgatheredCount := hgathered.count
    simp only [Option.toList_some, List.length_singleton] at hgatheredCount
    omega
  have hbytes : blob ((archive F project metadata detached).toValue F) = .ok bytes := by
    rw [sortResources_detached hgathered.detached hgathered.resources] at hbytes
    exact hbytes
  have hdepth := depth_portable_le_iff (F := F) (archive F project metadata detached) limit
  obtain ⟨px, hpx⟩ := hparsed.project.toXml hR
  obtain ⟨mx, hmx⟩ := exists_writes hR hparsed.metadata
  have hwritten : ∀ document ∈ metadata, ∃ xml ∈ mx, document.toXml C = .ok xml := by
    intro document hdocument
    cases hmx with
    | none => cases hdocument
    | some hwrites =>
      obtain rfl := Option.some.inj hdocument
      exact ⟨_, rfl, hwrites.1⟩
  have htoXml : Option.Rel (fun document xml => document.toXml C = .ok xml) metadata mx := by
    cases hmx with
    | none => exact .none
    | some hwrites => exact .some hwrites.1
  have hdecode := decodeDawproject_iff hZ hparsed hpx.1 htoXml
  have hiff : ArchiveState.Stays F C limit ⟨some project, metadata, resources, detached, paths⟩ ↔
      ∀ entry, .ok entry ∈ entries → EntryStays F C R limit entry :=
    hstays.trans ⟨fun h => h.2, fun h => ⟨stays_initial, h⟩⟩
  rw [hentries]
  simp only [Except.ok.injEq, forall_eq']
  rw [← hiff]
  constructor
  · rintro ⟨restored, hrestored, hagain⟩
    have hlimit : ((archive F project metadata detached).toValue F).depth ≤ limit := by
      by_contra hdeep
      obtain ⟨v, hv, _⟩ := bind_ok_iff.mp hrestored
      exact hF.parse_refused hparsed.storable hbytes hdeep v hv
    rw [restoreBytes_archive hF hhash hparsed hbytes hlimit, hdecode] at hrestored
    obtain ⟨⟨_, _, hshort⟩, hfinish⟩ := hrestored
    obtain ⟨⟨hlength, hlengths⟩, bytes', hbytes', heq⟩ :=
      (fromSourceBytes_restored hZ hparsed hcount hpx hmx hfinish _).mp hagain
    cases heq
    have hsame := hF.portable_injective (hparsed.parsed hhash) (hparsed.reread.parsed hhash) hbytes
      hbytes' hlimit
    obtain ⟨hprojectDepth, hmetadataDepth⟩ := hdepth.mp hlimit
    refine ⟨fun document hdocument => ?_, fun document hdocument => ?_, hshort⟩
    · obtain rfl := Option.some.inj hdocument
      have hsettled := project.reread_eq_iff.mp (congrArg PortableSnapshot.project hsame).symm
      refine ⟨⟨hsettled, hprojectDepth⟩, fun xml hxml => ?_⟩
      rw [hpx.1] at hxml
      obtain rfl := Except.ok.inj hxml
      exact hlength
    · obtain ⟨xml, hxml, hdocumentXml⟩ := hwritten document hdocument
      have hmetadata : metadata = metadata.map XmlDocument.reread :=
        congrArg PortableSnapshot.metadata hsame
      have hsome : metadata = some document := hdocument
      rw [hsome, Option.map_some, Option.some.injEq] at hmetadata
      refine ⟨⟨document.reread_eq_iff.mp hmetadata.symm, hmetadataDepth document hdocument⟩,
        fun xml' hxml' => ?_⟩
      rw [hdocumentXml] at hxml'
      obtain rfl := Except.ok.inj hxml'
      exact hlengths xml hxml
  · intro hs
    have hprojectStays := hs.project project rfl
    have hlimit := hdepth.mpr
      ⟨hprojectStays.1.2, fun document hdocument => (hs.metadata document hdocument).1.2⟩
    have hlength : F.byteLength px ≤ maxXmlBytes := hprojectStays.2 px hpx.1
    have hlengths : ∀ xml ∈ mx, F.byteLength xml ≤ maxXmlBytes := by
      intro xml hxml
      cases hmx with
      | none => cases hxml
      | some hwrites =>
        obtain rfl := Option.some.inj hxml
        exact (hs.metadata _ rfl).2 _ hwrites.1
    have hsame := hs.archive_reread
    have hxmlBytes : maxXmlBytes ≤ maxArchiveEntryBytes := by decide
    obtain ⟨restored, hfinish⟩ :=
      hZ.finished _ (nodup_xmlEntries hparsed.detached px mx)
        (size_xmlEntries hparsed.detached hlength hlengths)
    refine ⟨restored, ?_, (fromSourceBytes_restored hZ hparsed hcount hpx hmx hfinish _).mpr
      ⟨⟨hlength, hlengths⟩, bytes, ?_, rfl⟩⟩
    · rw [restoreBytes_archive hF hhash hparsed hbytes hlimit, hdecode]
      refine ⟨⟨hZ.stored _ _ _ (Nat.le_trans hlength hxmlBytes), fun xml hxml => ?_, hs.names⟩,
        hfinish⟩
      exact hZ.stored _ _ _ (Nat.le_trans (hlengths xml hxml) hxmlBytes)
    · rw [hsame]
      exact hbytes

end Returns

end AuruPm
