import AuruPm.XmlMarkup

/-!
# Normalizing what was restored

A Live Set that is normalized, restored and normalized again: which markup leads back to the same
snapshot.
-/

namespace AuruPm

set_option autoImplicit false

open SortedAssoc

/-! Trees that are read again. -/

theorem isBlank_append (s t : String) : isBlank (s ++ t) = (isBlank s && isBlank t) := by
  rw [isBlank, String.toList_append, List.all_append]
  rfl

theorem contentsKept_joinContent {text : String} (htext : isBlank text = false)
    {contents : List XmlContent} (h : ContentsKept contents) :
    ContentsKept (joinContent text contents) := by
  cases contents with
  | nil => exact ⟨htext, trivial⟩
  | cons content rest =>
    cases content with
    | text following =>
      refine ⟨?_, h.2⟩
      rw [isBlank_append, htext]
      rfl
    | _ => exact ⟨htext, h⟩

mutual
theorem kept_reread : (e : XmlElement) → e.Kept → e.reread.Kept
  | .mk _ _ _ children, h => ⟨h.1, h.2.1, kept_rereadContents children h.2.2⟩
theorem kept_rereadContents : (contents : List XmlContent) → ContentsKept contents →
    ContentsKept (rereadContents contents)
  | [], _ => trivial
  | .element e :: rest, h => ⟨kept_reread e h.1, kept_rereadContents rest h.2⟩
  | .text _ :: rest, h => contentsKept_joinContent h.1 (kept_rereadContents rest h.2)
  | .cdata _ :: rest, h => ⟨h.1, kept_rereadContents rest h.2⟩
  | .comment _ :: rest, h => kept_rereadContents rest h
end

section Validate
variable {C : CharClasses}

theorem validate_joinContent (text : String) (contents : List XmlContent) :
    validateContents C (joinContent text contents) = validateContents C contents := by
  cases contents with
  | nil => rfl
  | cons content rest => cases content <;> rfl

mutual
theorem validate_reread : (e : XmlElement) → e.reread.validate C = e.validate C
  | .mk tag id attributes children => by
    rw [XmlElement.reread, XmlElement.validate, XmlElement.validate,
      validate_rereadContents children]
theorem validate_rereadContents : (contents : List XmlContent) →
    validateContents C (rereadContents contents) = validateContents C contents
  | [] => rfl
  | .element e :: rest => by
    rw [rereadContents, validateContents, validateContents, validate_reread e,
      validate_rereadContents rest]
  | .text text :: rest => by
    rw [rereadContents, validate_joinContent, validate_rereadContents rest]
    rfl
  | .cdata cdata :: rest => validate_rereadContents rest
  | .comment comment :: rest => validate_rereadContents rest
end

end Validate

mutual
theorem ordered_of_kept : (e : XmlElement) → e.Kept → e.Ordered
  | .mk _ _ _ children, h => ⟨h.1, contentsOrdered_of_kept children h.2.2⟩
theorem contentsOrdered_of_kept : (contents : List XmlContent) → ContentsKept contents →
    ContentsOrdered contents
  | [], _ => trivial
  | .element e :: rest, h => ⟨ordered_of_kept e h.1, contentsOrdered_of_kept rest h.2⟩
  | .text _ :: rest, h => (contentsOrdered_of_kept rest h.2 : ContentsOrdered rest)
  | .cdata _ :: rest, h => (contentsOrdered_of_kept rest h.2 : ContentsOrdered rest)
  | .comment _ :: rest, h => (contentsOrdered_of_kept rest h : ContentsOrdered rest)
end

/-! The libraries. -/

section Fixpoint
variable {Bytes Hash : Type} (F : Formats Bytes Hash) (C : Codecs Bytes Hash)
variable (R : SourceCodecs Bytes)

/-- A reader that gives some bytes, as far as it is asked to. -/
def Streams (read : Nat → Except String Bytes) (bytes : Bytes) : Prop :=
  ∀ n, (F.byteLength bytes ≤ n → read n = .ok bytes) ∧
    (n < F.byteLength bytes → ∃ got, read n = .ok got ∧ n ≤ F.byteLength got)

/-- What the XML and the gzip library promise together: a document is read as it was written, but
that adjacent texts arrive as one and that a comment arrives as it stands; a section holds no end
of a section; and what was compressed comes back. -/
structure ReadsXml : Prop where
  written : ∀ document : XmlDocument, document.validate C.toCharClasses = .ok () →
    document.root.Kept → ∃ xml, C.writeXml (.decl :: document.root.events) = .ok xml ∧
      R.readXml xml = delivered (.decl :: document.root.events)
  sections : ∀ xml, ReadEvent.Sections (R.readXml xml)
  compressed : ∀ xml, ∃ packed, C.gzip xml = .ok packed ∧ R.isGzip packed = true ∧
    Streams F (R.gunzip packed) xml

/-- A document whose writing stays within what is read. -/
def XmlDocument.WritesWithin (document : XmlDocument) : Prop :=
  ∀ xml, document.toXml C = .ok xml → F.byteLength xml ≤ maxXmlBytes

/-- XML that stays as it is when it is normalized and restored. -/
def XmlStays (limit : Nat) (label : String) (xml : Bytes) : Prop :=
  markupStays limit (R.readXml xml) ⟨0, false⟩ = true ∧
    ∀ document, XmlDocument.parse F C R xml label = .ok document → document.WritesWithin F C

variable {F C R} {limit : Nat}

theorem Streams.readLimited {read : Nat → Except String Bytes} {bytes : Bytes}
    (h : Streams F read bytes) (limit : Nat) (label : String) (b : Bytes) :
    readLimited F read limit label = .ok b ↔ F.byteLength bytes ≤ limit ∧ b = bytes := by
  rw [AuruPm.readLimited]
  by_cases hlength : F.byteLength bytes ≤ limit
  · have hread := (h (limit + 1)).1 (Nat.le_succ_of_le hlength)
    simp only [hread, ioResult, bind, Except.bind, if_neg (Nat.not_lt.mpr hlength)]
    simp [pure, Except.pure, hlength, eq_comm]
  · constructor
    · intro hb
      obtain ⟨got, hgot, hb⟩ := bind_ok_iff.mp hb
      by_cases hequal : F.byteLength bytes = limit + 1
      · have hread := (h (limit + 1)).1 (Nat.le_of_eq hequal)
        rw [hread] at hgot
        obtain rfl := Except.ok.inj hgot
        rw [if_pos (Nat.not_le.mp hlength)] at hb
        cases hb
      · obtain ⟨got', hread, hlong⟩ := (h (limit + 1)).2 (by omega)
        rw [hread] at hgot
        obtain rfl := Except.ok.inj hgot
        rw [if_pos (by omega)] at hb
        cases hb
    · rintro ⟨hle, _⟩
      exact absurd hle hlength

/-- What is known of a document that was parsed. -/
structure XmlDocument.Parsed (C : Codecs Bytes Hash) (document : XmlDocument) : Prop where
  kept : document.root.Kept
  valid : document.validate C.toCharClasses = .ok ()

theorem XmlDocument.Parsed.ordered {document : XmlDocument} (h : document.Parsed C) :
    document.Ordered :=
  ordered_of_kept document.root h.kept

theorem parsed_parse (limit : Nat) (hR : ReadsXml F C R) {xml : Bytes} {label : String} {document : XmlDocument}
    (h : XmlDocument.parse F C R xml label = .ok document) :
    document.Parsed C ∧
      (document.root.Stays limit 0 ↔ markupStays limit (R.readXml xml) ⟨0, false⟩ = true) := by
  rw [XmlDocument.parse] at h
  split at h
  · cases h
  · obtain ⟨s, hs, h⟩ := bind_ok_iff.mp h
    have hkept := kept_parseEvents (s := ⟨[], none⟩) ⟨nofun, nofun⟩ (hR.sections xml) hs
    have hstays := stays_parseEvents limit hs
    obtain ⟨stack, root⟩ := s
    split at h
    · cases h
    · rename_i hstack
      obtain rfl : stack = [] := not_not.mp hstack
      cases root with
      | none => cases h
      | some root =>
        obtain ⟨_, hvalid, h⟩ := bind_ok_iff.mp h
        obtain rfl := Except.ok.inj h
        refine ⟨⟨hkept.root root rfl, hvalid⟩, ?_⟩
        simpa [ParseState.Stays, StackStays, ParseState.place] using hstays

/-- The tree that is read of what was written of a tree. -/
def XmlDocument.reread (document : XmlDocument) : XmlDocument := ⟨document.root.reread⟩

theorem XmlDocument.Parsed.toXml (hR : ReadsXml F C R) {document : XmlDocument}
    (h : document.Parsed C) : ∃ xml, document.toXml C = .ok xml ∧
      R.readXml xml = delivered (.decl :: document.root.events) := by
  obtain ⟨xml, hxml, hread⟩ := hR.written document h.valid h.kept
  refine ⟨xml, ?_, hread⟩
  rw [XmlDocument.toXml, h.valid, hxml]
  rfl

/-- What was written of a document is parsed, if it is not too long. -/
theorem XmlDocument.Parsed.parse {document : XmlDocument} (h : document.Parsed C) {xml : Bytes}
    (hread : R.readXml xml = delivered (.decl :: document.root.events)) (label : String)
    (again : XmlDocument) :
    XmlDocument.parse F C R xml label = .ok again ↔
      F.byteLength xml ≤ maxXmlBytes ∧ again = document.reread := by
  have hevents : R.readXml xml = .other :: document.root.reread.reading := by
    have hdelivered := delivered_events document.root []
    rw [List.append_nil, delivered, List.append_nil] at hdelivered
    rw [hread, delivered, hdelivered]
  have hparsed : parseEvents label (R.readXml xml) ⟨[], none⟩ =
      .ok ⟨[], some document.root.reread⟩ := by
    rw [hevents, parseEvents]
    exact parseEvents_reading document.root.reread (kept_reread document.root h.kept) ⟨[], none⟩
  have hvalid : (XmlDocument.mk document.root.reread).validate C.toCharClasses = .ok () :=
    (validate_reread document.root).trans h.valid
  rw [XmlDocument.parse, hparsed]
  by_cases hlength : maxXmlBytes < F.byteLength xml
  · rw [if_pos hlength]
    constructor
    · intro hfalse
      cases hfalse
    · rintro ⟨hle, _⟩
      omega
  · rw [if_neg hlength]
    simp only [bind, Except.bind, ne_eq, not_true_eq_false, if_false, hvalid]
    simp [pure, Except.pure, Nat.not_lt.mp hlength, XmlDocument.reread, eq_comm]

theorem XmlDocument.reread_eq_iff (document : XmlDocument) :
    document.reread = document ↔ document.root.Settled := by
  rw [← AuruPm.reread_eq_iff]
  obtain ⟨root⟩ := document
  simp [XmlDocument.reread]

/-- A document that stays, by its tree. -/
def XmlDocument.Stays (C : Codecs Bytes Hash) (F : Formats Bytes Hash) (limit : Nat)
    (document : XmlDocument) : Prop :=
  document.root.Stays limit 0 ∧ document.WritesWithin F C

theorem xmlStays_iff (hR : ReadsXml F C R) {xml : Bytes} {label : String} {document : XmlDocument}
    (h : XmlDocument.parse F C R xml label = .ok document) :
    XmlStays F C R limit label xml ↔ document.Stays C F limit := by
  rw [XmlStays, XmlDocument.Stays, (parsed_parse limit hR h).2]
  constructor
  · rintro ⟨hmarkup, hwrites⟩
    exact ⟨hmarkup, hwrites document h⟩
  · rintro ⟨hmarkup, hwrites⟩
    refine ⟨hmarkup, fun document' h' => ?_⟩
    rw [h] at h'
    obtain rfl := Except.ok.inj h'
    exact hwrites

/-! Wrappers. -/

/-- The wrapper of documents that were parsed, with the hashes of entries that were read. -/
structure PortableSnapshot.Parsed (F : Formats Bytes Hash) (C : Codecs Bytes Hash)
    (p : PortableSnapshot Hash) : Prop where
  storable : p.Storable
  hashes : ∀ resource ∈ p.resources, ∀ hash ∈ resource.hash,
    C.parseHash (F.hashText hash) = some hash

theorem depth_portable_le_iff (p : PortableSnapshot Hash) (limit : Nat) :
    (p.toValue F).depth ≤ limit ↔ p.project.root.toValue.depth + 2 ≤ limit ∧
      ∀ document ∈ p.metadata, document.root.toValue.depth + 2 ≤ limit := by
  obtain ⟨version, format, ⟨root⟩, metadata, resources⟩ := p
  have hroot := depth_element_pos root
  have hdocument : ∀ document : XmlDocument,
      document.toValue.depth = document.root.toValue.depth + 1 := by
    intro document
    simp [XmlDocument.toValue, structValue, Value.depth, Value.depthFields, SortedAssoc.insert]
  constructor
  · intro h
    rw [PortableSnapshot.toValue, structValue] at h
    obtain ⟨n, rfl⟩ : ∃ n, limit = n + 1 := by
      rw [Value.depth] at h
      exact ⟨limit - 1, by omega⟩
    rw [Value.depth_object_le_iff] at h
    have hproject := h ("project", XmlDocument.toValue ⟨root⟩) (mem_of_get? (by
      cases metadata <;> cases resources <;> simp [skipNone, skipEmpty, get?_insert]))
    rw [hdocument] at hproject
    refine ⟨Nat.succ_le_succ hproject, fun document hmem => ?_⟩
    obtain rfl := Option.mem_def.mp hmem
    have hmetadata := h ("metadata", document.toValue) (mem_of_get? (by
      cases resources <;> simp [skipNone, skipEmpty, get?_insert]))
    rw [hdocument] at hmetadata
    exact Nat.succ_le_succ hmetadata
  · rintro ⟨hproject, hmetadata⟩
    simp only at hproject hmetadata
    obtain ⟨n, rfl⟩ : ∃ n, limit = n + 3 := ⟨limit - 3, by omega⟩
    apply depth_structValue_le
    apply forall_portableFields (P := fun v => v.depth ≤ n + 2)
    · exact Nat.zero_le _
    · exact Nat.zero_le _
    · rw [hdocument]
      exact Nat.le_of_succ_le_succ hproject
    · intro document hmem
      rw [hdocument]
      exact Nat.le_of_succ_le_succ (hmetadata document hmem)
    · rw [Value.depth_array_le_iff]
      intro v hv
      obtain ⟨resource, _, rfl⟩ := List.mem_map.mp hv
      apply depth_structValue_le
      exact forall_resourceFields (P := fun v => v.depth ≤ n) (fun _ => Nat.zero_le _)
        fun _ _ => Nat.zero_le _

variable {blob : Value → Except String Bytes}

/-- No two wrappers have one text. -/
theorem Formats.ReadsBlobs.portable_injective (hF : F.ReadsBlobs blob limit)
    {p q : PortableSnapshot Hash} (hp : p.Parsed F C) (hq : q.Parsed F C) {bytes : Bytes}
    (hpbytes : blob (p.toValue F) = .ok bytes) (hqbytes : blob (q.toValue F) = .ok bytes)
    (hdepth : (p.toValue F).depth ≤ limit) : p = q := by
  obtain ⟨v, hparse, hread⟩ := hF.read_portable hp.storable hp.hashes hpbytes hdepth
  by_cases hqdepth : (q.toValue F).depth ≤ limit
  · obtain ⟨w, hparse', hread'⟩ := hF.read_portable hq.storable hq.hashes hqbytes hqdepth
    rw [hparse] at hparse'
    obtain rfl := Except.ok.inj hparse'
    rw [hread] at hread'
    exact Option.some.inj hread'
  · obtain ⟨e, he⟩ := hF.refused _ _ hqbytes (wf_portableValue hq.storable)
      (Nat.not_le.mp hqdepth)
    rw [parseJson, he] at hparse
    cases hparse

/-- A wrapper that nests too deeply is not parsed. -/
theorem Formats.ReadsBlobs.parse_refused (hF : F.ReadsBlobs blob limit)
    {p : PortableSnapshot Hash} (hp : p.Storable) {bytes : Bytes}
    (hbytes : blob (p.toValue F) = .ok bytes) (hdepth : ¬ (p.toValue F).depth ≤ limit) :
    ∀ v, parseJson F bytes ≠ .ok v := by
  obtain ⟨e, he⟩ := hF.refused _ _ hbytes (wf_portableValue hp) (Nat.not_le.mp hdepth)
  intro v hv
  rw [parseJson, he] at hv
  cases hv

end Fixpoint

/-! Live Sets. -/

section Returns
variable {Bytes Hash : Type}

/-- Normalizing what a snapshot restores to leads back to it. -/
def ProjectSnapshot.Returns [DecidableEq Hash] (F : Formats Bytes Hash) (C : Codecs Bytes Hash)
    (R : SourceCodecs Bytes) (blob : Value → Except String Bytes)
    (snapshot : ProjectSnapshot Bytes) : Prop :=
  ∃ restored, snapshot.restoreBytes F C = .ok restored ∧
    ProjectSnapshot.fromSourceBytes F C R blob snapshot.format restored = .ok snapshot

variable {F : Formats Bytes Hash} {C : Codecs Bytes Hash} {R : SourceCodecs Bytes}
variable {blob : Value → Except String Bytes} {limit : Nat}

/-- The wrapper of a set. -/
def setWrapper (Hash : Type) (document : XmlDocument) : PortableSnapshot Hash :=
  ⟨1, .abletonLiveSet, document, none, []⟩

theorem storable_setWrapper {document : XmlDocument} (h : document.Parsed C) :
    (setWrapper Hash document).Storable where
  version := show 1 < 2 ^ 32 by decide
  project := h.ordered
  metadata := nofun
  sizes := nofun

theorem parsed_setWrapper {document : XmlDocument} (h : document.Parsed C) :
    (setWrapper Hash document).Parsed F C :=
  ⟨storable_setWrapper h, nofun⟩

theorem validate_setWrapper {document : XmlDocument} (h : document.Parsed C) :
    (setWrapper Hash document).validate C = .ok () := by
  have hversion : ¬ ¬ ((1 : Nat) ≤ 1 ∧ (1 : Nat) ≤ 2) := by decide
  have hformat : ¬ (ProjectFormat.abletonLiveSet = .auru ∨
      ProjectFormat.abletonLiveSet = .bitwigProject) := by decide
  rw [setWrapper, PortableSnapshot.validate, if_neg hversion, if_neg hformat, h.valid]
  rfl

/-- What a set is restored to. -/
theorem restoreBytes_setWrapper [DecidableEq Hash] (hF : F.ReadsBlobs blob limit) (hR : ReadsXml F C R)
    {document : XmlDocument} (h : document.Parsed C) {bytes : Bytes}
    (hbytes : blob ((setWrapper Hash document).toValue F) = .ok bytes)
    (hdepth : ((setWrapper Hash document).toValue F).depth ≤ limit) :
    ∃ xml packed, document.toXml C = .ok xml ∧
      R.readXml xml = delivered (.decl :: document.root.events) ∧ R.isGzip packed = true ∧
        Streams F (R.gunzip packed) xml ∧
          (ProjectSnapshot.mk .abletonLiveSet bytes []).restoreBytes F C = .ok packed := by
  obtain ⟨xml, hxml, hread⟩ := h.toXml hR
  obtain ⟨packed, hpacked, hgzip, hstreams⟩ := hR.compressed xml
  obtain ⟨v, hv, hwrapper⟩ := hF.read_portable (C := C) (storable_setWrapper h) nofun hbytes hdepth
  refine ⟨xml, packed, hxml, hread, hgzip, hstreams, ?_⟩
  rw [ProjectSnapshot.restoreBytes]
  refine bind_ok_iff.mpr ⟨v, hv, bind_ok_iff.mpr ⟨setWrapper Hash document, ?_,
    bind_ok_iff.mpr ⟨(), validate_setWrapper h, ?_⟩⟩⟩
  · rw [hwrapper, serdeResult]
  · have hformat : ¬ (setWrapper Hash document).format ≠ .abletonLiveSet := not_not.mpr rfl
    rw [if_neg hformat]
    refine bind_ok_iff.mpr ⟨xml, hxml, ?_⟩
    rw [hpacked, ioResult]

/-- What a compressed set is taken for. -/
theorem fromSourceBytes_setWrapper_iff {source : Bytes} {snapshot : ProjectSnapshot Bytes} :
    ProjectSnapshot.fromSourceBytes F C R blob .abletonLiveSet source = .ok snapshot ↔
      ∃ xml document bytes, abletonXml F R source = .ok xml ∧
        XmlDocument.parse F C R xml "Ableton Live Set" = .ok document ∧
          blob ((setWrapper Hash document).toValue F) = .ok bytes ∧
            snapshot = ⟨.abletonLiveSet, bytes, []⟩ := by
  constructor
  · intro h
    obtain ⟨⟨value, detached⟩, hvalue, h⟩ := bind_ok_iff.mp h
    obtain ⟨p, hp, hvalue⟩ := bind_ok_iff.mp hvalue
    obtain ⟨xml, hxml, hp⟩ := bind_ok_iff.mp hp
    obtain ⟨document, hdocument, hp⟩ := bind_ok_iff.mp hp
    cases hp
    cases hvalue
    obtain ⟨bytes, hbytes, h⟩ := bind_ok_iff.mp h
    exact ⟨xml, document, bytes, hxml, hdocument, hbytes, (Except.ok.inj h).symm⟩
  · rintro ⟨xml, document, bytes, hxml, hdocument, hbytes, rfl⟩
    refine bind_ok_iff.mpr ⟨((setWrapper Hash document).toValue F, []), ?_,
      bind_ok_iff.mpr ⟨bytes, hbytes, rfl⟩⟩
    refine bind_ok_iff.mpr ⟨setWrapper Hash document, ?_, rfl⟩
    exact bind_ok_iff.mpr ⟨xml, hxml, bind_ok_iff.mpr ⟨document, hdocument, rfl⟩⟩

/-- A set leads back to its snapshot exactly if its markup stays. -/
theorem setWrapper_returns_iff [DecidableEq Hash] (hF : F.ReadsBlobs blob limit) (hR : ReadsXml F C R) {source : Bytes}
    {snapshot : ProjectSnapshot Bytes}
    (h : ProjectSnapshot.fromSourceBytes F C R blob .abletonLiveSet source = .ok snapshot) :
    snapshot.Returns F C R blob ↔ ∀ xml, abletonXml F R source = .ok xml →
      XmlStays F C R limit "Ableton Live Set" xml := by
  obtain ⟨source, document, bytes, hsource, hdocument, hbytes, rfl⟩ :=
    fromSourceBytes_setWrapper_iff.mp h
  have hparsed := (parsed_parse limit hR hdocument).1
  have hreparsed : document.reread.Parsed C :=
    ⟨kept_reread document.root hparsed.kept, (validate_reread document.root).trans hparsed.valid⟩
  have hdepth := depth_portable_le_iff (F := F) (setWrapper Hash document) limit
  rw [hsource]
  simp only [Except.ok.injEq, forall_eq']
  rw [xmlStays_iff hR hdocument]
  constructor
  · rintro ⟨restored, hrestored, hagain⟩
    have hlimit : ((setWrapper Hash document).toValue F).depth ≤ limit := by
      by_contra hdeep
      obtain ⟨v, hv, _⟩ := bind_ok_iff.mp hrestored
      exact hF.parse_refused (storable_setWrapper hparsed) hbytes hdeep v hv
    obtain ⟨xml, packed, hxml, hread, hgzip, hstreams, hpacked⟩ :=
      restoreBytes_setWrapper hF hR hparsed hbytes hlimit
    rw [hpacked] at hrestored
    obtain rfl := Except.ok.inj hrestored
    obtain ⟨xml', again, bytes', hxml', hagain, hbytes', heq⟩ :=
      fromSourceBytes_setWrapper_iff.mp hagain
    rw [abletonXml, if_pos hgzip, hstreams.readLimited] at hxml'
    obtain ⟨hwithin, rfl⟩ := hxml'
    obtain ⟨_, rfl⟩ := (hparsed.parse hread _ _).mp hagain
    cases heq
    have hsame := hF.portable_injective (parsed_setWrapper hparsed) (parsed_setWrapper hreparsed) hbytes
      hbytes' hlimit
    have hsettled := document.reread_eq_iff.mp (congrArg PortableSnapshot.project hsame).symm
    refine ⟨⟨hsettled, (hdepth.mp hlimit).1⟩, fun written hwritten => ?_⟩
    rw [hxml] at hwritten
    obtain rfl := Except.ok.inj hwritten
    exact hwithin
  · rintro ⟨⟨hsettled, hlevel⟩, hwithin⟩
    have hlimit := hdepth.mpr ⟨hlevel, nofun⟩
    obtain ⟨xml, packed, hxml, hread, hgzip, hstreams, hpacked⟩ :=
      restoreBytes_setWrapper hF hR hparsed hbytes hlimit
    refine ⟨packed, hpacked, fromSourceBytes_setWrapper_iff.mpr ⟨xml, document, bytes, ?_, ?_, hbytes,
      rfl⟩⟩
    · rw [abletonXml, if_pos hgzip, hstreams.readLimited]
      exact ⟨hwithin xml hxml, rfl⟩
    · exact (hparsed.parse hread _ _).mpr
        ⟨hwithin xml hxml, (document.reread_eq_iff.mpr hsettled).symm⟩

end Returns

end AuruPm
