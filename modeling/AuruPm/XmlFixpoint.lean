import AuruPm.ArchiveFixpoint

/-!
# Restored projects, normalized again

Which Live Sets and which DAWproject archives lead back to their snapshot when what it restores to
is normalized again.
-/

namespace AuruPm

set_option autoImplicit false

open SortedAssoc

section Fixpoint
variable {Bytes Hash : Type} [DecidableEq Hash] {F : Formats Bytes Hash} {C : Codecs Bytes Hash}
variable {R : SourceCodecs Bytes} {blob : Value → Except String Bytes} {limit : Nat}

/-- A set or an archive that was normalized is restored to one that is normalized to the same
snapshot exactly if its markup stays and what is written of it can be read. -/
theorem normalized_again_iff (hF : F.ReadsBlobs blob limit) (hR : ReadsXml F C R)
    (hZ : ReadsZip F C R)
    (hhash : ∀ bytes, C.parseHash (F.hashText (F.contentHash bytes)) = some (F.contentHash bytes)) :
    (∀ source snapshot,
      ProjectSnapshot.fromSourceBytes F C R blob .abletonLiveSet source = .ok snapshot →
        (snapshot.Returns F C R blob ↔ ∀ xml, abletonXml F R source = .ok xml →
          XmlStays F C R limit "Ableton Live Set" xml)) ∧
      ∀ source snapshot,
        ProjectSnapshot.fromSourceBytes F C R blob .dawproject source = .ok snapshot →
          (snapshot.Returns F C R blob ↔ ∀ entries, R.zipEntries source = .ok entries →
            ∀ entry, .ok entry ∈ entries → EntryStays F C R limit entry) :=
  ⟨fun _ _ h => setWrapper_returns_iff hF hR h, fun _ _ h => archive_returns_iff hF hR hZ hhash h⟩

end Fixpoint

/-! Files by what they were made from. -/

inductive File where
  | json (v : Value)
  | xml (events : List ReadEvent)
  | gz (file : File)
  | zip (entries : List (String × File))

/-- Events without a section that would hold the end of one. -/
def withSections (events : List ReadEvent) : List ReadEvent :=
  events.filter fun event => match event with
    | .cdata (.ok cdata) => !Ableton.contains "]]>" cdata
    | _ => true

theorem sections_withSections (events : List ReadEvent) :
    ReadEvent.Sections (withSections events) := by
  intro cdata h
  have hkept := (List.mem_filter.mp h).2
  simpa [isSection] using hkept

theorem withSections_append (events rest : List ReadEvent) :
    withSections (events ++ rest) = withSections events ++ withSections rest :=
  List.filter_append _ _

mutual
theorem withSections_reading : (e : XmlElement) → e.Kept → withSections e.reading = e.reading
  | .mk tag id attributes children, h => by
    rw [XmlElement.reading]
    split
    · rfl
    · rw [← List.singleton_append, withSections_append, withSections_append,
        withSections_contents children h.2.2]
      rfl
theorem withSections_contents : (contents : List XmlContent) → ContentsKept contents →
    withSections (contentsReading contents) = contentsReading contents
  | [], _ => rfl
  | .element e :: rest, h => by
    rw [contentsReading, withSections_append, withSections_reading e h.1,
      withSections_contents rest h.2]
  | .text text :: rest, h => by
    rw [contentsReading, ← List.singleton_append, withSections_append,
      withSections_contents rest h.2]
    rfl
  | .cdata cdata :: rest, h => by
    have hsection : withSections [.cdata (.ok cdata)] = [.cdata (.ok cdata)] := by
      have := h.1
      simp_all [withSections, isSection]
    rw [contentsReading, ← List.singleton_append, withSections_append,
      withSections_contents rest h.2, hsection]
  | .comment comment :: rest, h => by
    have hrest := withSections_contents rest h
    rw [contentsReading, ← List.singleton_append, withSections_append, hrest]
    rfl
end

def fileDecode : File → Except String Value
  | .json v => if v.depth ≤ 127 then .ok v else .error "recursion limit exceeded"
  | _ => .error "expected value"

def fileFormats : Formats File String where
  contentHash _ := "hash"
  zero := ""
  hashText := id
  byteLength _ := 0
  encodeFrame := id
  decodeFrame := some
  encodeCommit _ := .error "unused"
  decodeCommit _ := .error "unused"
  encodeManifest _ := .error "unused"
  decodeManifest _ := .error "unused"
  encodeValue := .json
  decodeValue := fileDecode

def fileCodecs : Codecs File String where
  isAlphabetic := Char.isAlpha
  isAlphanumeric := Char.isAlphanum
  parseHash := some
  base64Encode _ := ""
  base64Decode _ := .error "unused"
  isBitwig _ := false
  writeXml events := .ok (.xml (delivered events))
  gzip file := .ok (.gz file)
  flFromTree _ := .error "unused"
  zipStart _ name := if name.utf8ByteSize < 2 ^ 16 then .ok () else .error "name too long"
  zipWrite _ _ _ := .ok ()
  zipFinish written := .ok (.zip written)

def listedEntry (entry : String × File) : ZipEntry File := ⟨entry.1, 0, fun _ => .ok entry.2⟩

def fileReaders : SourceCodecs File where
  readXml
    | .xml events => withSections events
    | _ => [.error "syntax error"]
  isGzip
    | .gz _ => true
    | _ => false
  gunzip
    | .gz file => fun _ => .ok file
    | _ => fun _ => .error "invalid gzip header"
  zipEntries
    | .zip entries => .ok (entries.map fun entry => .ok (listedEntry entry))
    | _ => .error "invalid Zip archive"
  flToTree _ := .error "unused"

def fileBlob (v : Value) : Except String File := .ok (.json v)

theorem fileFormats_reads : fileFormats.ReadsBlobs fileBlob 127 where
  printed v bytes h _ hdepth := by
    obtain rfl := Except.ok.inj h
    exact ⟨v, if_pos hdepth, rfl⟩
  refused v bytes h _ hdeep := by
    obtain rfl := Except.ok.inj h
    exact ⟨_, if_neg (Nat.not_le.mpr hdeep)⟩

theorem streams_file (file : File) : Streams fileFormats (fun _ => .ok file) file :=
  fun _ => ⟨fun _ => rfl, fun h => absurd h (Nat.not_lt_zero _)⟩

theorem fileReaders_xml : ReadsXml fileFormats fileCodecs fileReaders where
  written document _ hkept := by
    refine ⟨_, rfl, ?_⟩
    have hevents : delivered (.decl :: document.root.events) =
        .other :: document.root.reread.reading := by
      have hdelivered := delivered_events document.root []
      rw [List.append_nil, delivered, List.append_nil] at hdelivered
      rw [delivered, hdelivered]
    show withSections (delivered (.decl :: document.root.events)) = _
    rw [hevents, ← List.singleton_append, withSections_append,
      withSections_reading _ (kept_reread document.root hkept)]
    rfl
  sections file := by
    cases file with
    | xml events => exact sections_withSections events
    | _ =>
      intro cdata h
      cases List.mem_singleton.mp h
  compressed file := ⟨.gz file, rfl, rfl, streams_file file⟩

theorem fileReaders_zip : ReadsZip fileFormats fileCodecs fileReaders where
  started written name _ := by
    show (if name.utf8ByteSize < 2 ^ 16 then Except.ok () else Except.error "name too long") =
      .ok () ↔ name.utf8ByteSize < 2 ^ 16
    split <;> simp_all
  stored _ _ _ _ := rfl
  finished written _ _ := ⟨.zip written, rfl⟩
  listed written bytes _ h := by
    obtain rfl := Except.ok.inj h
    refine ⟨written.map listedEntry, ?_, ?_⟩
    · show Except.ok _ = _
      rw [List.map_map]
      rfl
    · rw [List.forall₂_map_left_iff]
      exact List.forall₂_same.mpr fun entry _ => ⟨rfl, rfl, streams_file entry.2⟩

/-- A set with a track and a comment in it. -/
def plainSet : File :=
  .xml [.start (.ok "Ableton") [.ok ⟨.ok "Creator", .ok "Live & more"⟩],
    .text (.ok " "), .comment (.ok "saved twice"), .empty (.ok "Track") [.ok ⟨.ok "Id", .ok "7"⟩],
    .close]

/-- An archive with one sample. -/
def sampleArchive : File :=
  .zip [("project.xml", .xml [.empty (.ok "Project") []]), ("audio/", .json .null),
    ("audio/kick.wav", .json .null)]

def plainDocument : XmlDocument :=
  ⟨.mk "Ableton" none [("Creator", "Live & more")]
    [.comment "saved twice", .element (.mk "Track" (some "7") [("Id", "7")] [])]⟩

theorem plainSet_parsed :
    XmlDocument.parse fileFormats fileCodecs fileReaders plainSet "Ableton Live Set" =
      .ok plainDocument := by
  have hset : fileReaders.readXml plainSet = withSections
      [.start (.ok "Ableton") [.ok ⟨.ok "Creator", .ok "Live & more"⟩], .text (.ok " "),
        .comment (.ok "saved twice"), .empty (.ok "Track") [.ok ⟨.ok "Id", .ok "7"⟩], .close] := rfl
  have hlength : ¬ maxXmlBytes < fileFormats.byteLength plainSet := Nat.not_lt.mpr (Nat.zero_le _)
  have hid : attributeId [("Id", "7")] = some "7" := by decide +kernel
  have hnone : attributeId [("Creator", "Live & more")] = none := by decide +kernel
  have hblank : isBlank " " = true := by decide +kernel
  have hvalid : plainDocument.validate fileCodecs.toCharClasses = .ok () := by decide +kernel
  rw [plainDocument] at hvalid ⊢
  rw [XmlDocument.parse, if_neg hlength, hset]
  simp [withSections, parseEvents, parseEvent, XmlElement.fromStart, collectAttributes, xmlResult,
    bind, Except.bind, pure, Except.pure, appendElement, appendContent, hid, hnone, hblank,
    XmlElement.push, SortedAssoc.insert, hvalid]

def sampleDocument : XmlDocument := ⟨.mk "Project" none [] []⟩

def kick : String × File := ("audio/kick.wav", .json .null)

def sampleState : ArchiveState File String :=
  ⟨some sampleDocument, none, [detachedResource fileFormats kick], [kick],
    ["audio/kick.wav", "project.xml"]⟩

theorem listedAs_listedEntry (entry : String × File) :
    ListedAs fileFormats (listedEntry entry) entry :=
  ⟨rfl, rfl, streams_file entry.2⟩

theorem sampleDocument_parsed :
    XmlDocument.parse fileFormats fileCodecs fileReaders (.xml [.empty (.ok "Project") []])
      "DAWproject project.xml" = .ok sampleDocument := by
  have hvalid : sampleDocument.validate fileCodecs.toCharClasses = .ok () := by decide +kernel
  have hset : fileReaders.readXml (.xml [.empty (.ok "Project") []]) =
      withSections [.empty (.ok "Project") []] := rfl
  have hlength : ¬ maxXmlBytes < fileFormats.byteLength (.xml [.empty (.ok "Project") []]) :=
    Nat.not_lt.mpr (Nat.zero_le _)
  rw [sampleDocument] at hvalid ⊢
  rw [XmlDocument.parse, if_neg hlength, hset]
  simp [withSections, parseEvents, parseEvent, XmlElement.fromStart, collectAttributes, xmlResult,
    bind, Except.bind, pure, Except.pure, appendElement, attributeId, hvalid]

theorem sampleArchive_read :
    readEntries fileFormats fileCodecs fileReaders
      ([("project.xml", .xml [.empty (.ok "Project") []]), ("audio/", .json .null), kick].map
        fun entry => .ok (listedEntry entry)) ArchiveState.initial = .ok sampleState := by
  have hproject : readEntry fileFormats fileCodecs fileReaders
      (listedEntry ("project.xml", .xml [.empty (.ok "Project") []])) ArchiveState.initial =
        .ok ⟨some sampleDocument, none, [], [], ["project.xml"]⟩ := by
    apply (readEntry_listedAs (listedAs_listedEntry _) (by decide) (by decide)
      List.not_mem_nil).mpr
    refine ⟨Nat.zero_le _, ?_⟩
    rw [storeEntry, if_pos rfl, sampleDocument_parsed]
    rfl
  have hfolder : ∀ s, readEntry fileFormats fileCodecs fileReaders
      (listedEntry ("audio/", .json .null)) s = .ok s := by
    intro s
    exact if_pos (by decide)
  have hkick : readEntry fileFormats fileCodecs fileReaders (listedEntry kick)
      ⟨some sampleDocument, none, [], [], ["project.xml"]⟩ = .ok sampleState := by
    apply (readEntry_listedAs (listedAs_listedEntry _) (by decide) (by decide) (by decide)).mpr
    refine ⟨Nat.zero_le _, ?_⟩
    have hname : ¬ kick.1 = "project.xml" ∧ ¬ kick.1 = "metadata.xml" := by decide
    rw [storeEntry, if_neg hname.1, if_neg hname.2]
    rfl
  simp only [List.map_cons, List.map_nil, readEntries, hproject, hfolder, hkick, bind, Except.bind]

theorem plain_returns :
    (∃ snapshot, ProjectSnapshot.fromSourceBytes fileFormats fileCodecs fileReaders fileBlob
        .abletonLiveSet plainSet = .ok snapshot ∧
      snapshot.Returns fileFormats fileCodecs fileReaders fileBlob) ∧
    ∃ snapshot, ProjectSnapshot.fromSourceBytes fileFormats fileCodecs fileReaders fileBlob
        .dawproject sampleArchive = .ok snapshot ∧
      snapshot.Returns fileFormats fileCodecs fileReaders fileBlob := by
  have hreturns := normalized_again_iff fileFormats_reads fileReaders_xml fileReaders_zip fun _ => rfl
  constructor
  · have hset : ProjectSnapshot.fromSourceBytes fileFormats fileCodecs fileReaders fileBlob
        .abletonLiveSet plainSet =
          .ok ⟨.abletonLiveSet, .json ((setWrapper String plainDocument).toValue fileFormats), []⟩ :=
      fromSourceBytes_setWrapper_iff.mpr
        ⟨plainSet, plainDocument, _, rfl, plainSet_parsed, rfl, rfl⟩
    refine ⟨_, hset, (hreturns.1 plainSet _ hset).mpr ?_⟩
    intro xml hxml
    obtain rfl := Except.ok.inj hxml
    exact ⟨by decide +kernel, fun _ _ _ _ => Nat.zero_le _⟩
  · have harchive : ProjectSnapshot.fromSourceBytes fileFormats fileCodecs fileReaders fileBlob
        .dawproject sampleArchive =
          .ok ⟨.dawproject, .json ((archive fileFormats sampleDocument none [kick]).toValue
            fileFormats), [kick]⟩ :=
      fromSourceBytes_dawproject_iff.mpr
        ⟨_, sampleState, sampleDocument, _, rfl, by decide, sampleArchive_read, rfl, rfl, rfl⟩
    refine ⟨_, harchive, (hreturns.2 sampleArchive _ harchive).mpr ?_⟩
    intro entries hentries entry hentry hfile
    obtain rfl := Except.ok.inj hentries
    simp only [List.map_cons, List.map_nil, List.mem_cons, Except.ok.injEq, List.not_mem_nil,
      or_false] at hentry
    rcases hentry with rfl | rfl | rfl
    · refine ⟨by decide, fun _ xml hxml => ?_⟩
      obtain rfl := Except.ok.inj hxml
      exact ⟨by decide, fun _ _ _ _ => Nat.zero_le _⟩
    · exact absurd hfile (by decide)
    · exact ⟨by decide, fun hname => absurd hname (by decide)⟩

/-- A set whose comment has a character that is escaped. -/
def markedSet : File :=
  .xml [.start (.ok "Ableton") [], .comment (.ok "drums & bass"), .close]

def markedDocument : XmlDocument := ⟨.mk "Ableton" none [] [.comment "drums & bass"]⟩

theorem markedDocument_parsed : markedDocument.Parsed fileCodecs where
  kept := ⟨List.Pairwise.nil, rfl, trivial⟩
  valid := by decide +kernel

theorem markedSet_parsed :
    XmlDocument.parse fileFormats fileCodecs fileReaders markedSet "Ableton Live Set" =
      .ok markedDocument := by
  have hset : fileReaders.readXml markedSet =
      withSections [.start (.ok "Ableton") [], .comment (.ok "drums & bass"), .close] := rfl
  have hlength : ¬ maxXmlBytes < fileFormats.byteLength markedSet := Nat.not_lt.mpr (Nat.zero_le _)
  have hvalid := markedDocument_parsed.valid
  rw [markedDocument] at hvalid ⊢
  rw [XmlDocument.parse, if_neg hlength, hset]
  simp [withSections, parseEvents, parseEvent, XmlElement.fromStart, collectAttributes, xmlResult,
    bind, Except.bind, pure, Except.pure, appendElement, appendContent, XmlElement.push,
    attributeId, hvalid]

/-- The comment is escaped when the set is restored, and not unescaped when it is read again. -/
theorem comment_escaped :
    ∃ snapshot restored again,
      ProjectSnapshot.fromSourceBytes fileFormats fileCodecs fileReaders fileBlob .abletonLiveSet
        markedSet = .ok snapshot ∧
      snapshot.restoreBytes fileFormats fileCodecs = .ok restored ∧
      ProjectSnapshot.fromSourceBytes fileFormats fileCodecs fileReaders fileBlob .abletonLiveSet
        restored = .ok again ∧
      again.canonicalBytes ≠ snapshot.canonicalBytes := by
  have hparsed := markedDocument_parsed
  have hdepth : ((setWrapper String markedDocument).toValue fileFormats).depth ≤ 127 := by
    decide +kernel
  obtain ⟨xml, packed, hxml, hread, hgzip, hstreams, hpacked⟩ :=
    restoreBytes_setWrapper fileFormats_reads fileReaders_xml hparsed rfl hdepth
  have hset : ProjectSnapshot.fromSourceBytes fileFormats fileCodecs fileReaders fileBlob
      .abletonLiveSet markedSet =
        .ok ⟨.abletonLiveSet, .json ((setWrapper String markedDocument).toValue fileFormats), []⟩ :=
    fromSourceBytes_setWrapper_iff.mpr ⟨markedSet, markedDocument, _, rfl, markedSet_parsed, rfl, rfl⟩
  have hagain : ProjectSnapshot.fromSourceBytes fileFormats fileCodecs fileReaders fileBlob
      .abletonLiveSet packed =
        .ok ⟨.abletonLiveSet,
          .json ((setWrapper String markedDocument.reread).toValue fileFormats), []⟩ := by
    refine fromSourceBytes_setWrapper_iff.mpr ⟨xml, markedDocument.reread, _, ?_, ?_, rfl, rfl⟩
    · rw [abletonXml, if_pos hgzip, hstreams.readLimited]
      exact ⟨Nat.zero_le _, rfl⟩
    · exact (hparsed.parse hread _ _).mpr ⟨Nat.zero_le _, rfl⟩
  refine ⟨_, packed, _, hset, hpacked, hagain, fun heq => ?_⟩
  have hsame := fileFormats_reads.portable_injective (parsed_setWrapper (C := fileCodecs) hparsed)
    (parsed_setWrapper hparsed.reread) rfl (congrArg Except.ok heq) hdepth
  have hsettled : markedDocument.root.Settled :=
    markedDocument.reread_eq_iff.mp (congrArg PortableSnapshot.project hsame).symm
  exact absurd hsettled.1 (by decide)

end AuruPm
