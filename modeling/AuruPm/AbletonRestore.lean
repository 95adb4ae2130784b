import AuruPm.DawprojectRestore
import AuruPm.RestoreFolder
import AuruPm.RestoreTarget
import AuruPm.RewriteFrame

/-!
# Restoring a Live Set

A restored version becomes a project folder: the captured files are fetched and created one after
another, the references of the set are pointed at them, and the set is written last.
-/

namespace AuruPm

set_option autoImplicit false

open FileTree LexicalPath Restore SortedAssoc Threads

/-- `from_portable` -/
def ProjectSnapshot.fromPortable {Bytes Hash : Type} [DecidableEq Hash] (F : Formats Bytes Hash)
    (C : Codecs Bytes Hash) (blob : Value → Except String Bytes) (p : PortableSnapshot Hash) :
    Except String (ProjectSnapshot Bytes) :=
  ProjectSnapshot.fromPortableWithResources F C blob p []

namespace Ableton

structure RestoreReport where
  root : HostPath
  liveSet : HostPath
  filesWritten : Nat := 0
  bytesWritten : Nat := 0
  rewrite : RewriteReport := {}
  unavailable : List String := []
  deriving DecidableEq

def RestoreReport.start (destination : HostPath) (liveSetName : FileName) : RestoreReport where
  root := destination
  liveSet := destination.join (HostPath.ofText liveSetName.name)

/-- `vendor_plan` -/
def manifestPlan {Hash : Type} (manifest : SampleManifest Hash) : VendorPlan :=
  .new (manifest.entries.filterMap fun entry => entry.origin.map fun origin => (origin, entry.path))

section Program
variable {Bytes Hash : Type} (F : Formats Bytes Hash) (C : Codecs Bytes Hash)
variable (blob : Value → Except String Bytes) (host : Host)

def ensureSafeDestination (destination : HostPath) (liveSetName : String) :
    Option (DirTree Bytes) → Except String Unit
  | none => .ok ()
  | some t =>
    if t.Dangling then .ok ()
    else
      match t.listed with
      | none =>
        projectFormatError ("'" ++ destination.display ++ "' is a file; restore needs a folder")
      | some [] => .ok ()
      | some (_ :: _) =>
        projectFormatError ("'" ++ destination.display ++
          "' already contains files, including a possible '" ++ liveSetName ++
            "'. Choose whether to replace, overwrite, duplicate, or ignore it before restoring.")

/-- The loop over the manifest, with the folder and the report so far. -/
def restoreEntries :
    List (SampleEntry Hash) → DirTree Bytes → RestoreReport →
      Reading Bytes Hash (DirTree Bytes × RestoreReport)
  | [], t, report => pure (t, report)
  | entry :: rest, t, report =>
    match safeRelativePath .posix entry.path with
    | none =>
      restoreEntries rest t { report with unavailable := report.unavailable ++ [entry.path] }
    | some relative => do
      match ← Prog.attempt (ReadCall.getBlob entry.hash) with
      | .error _ =>
        restoreEntries rest t { report with unavailable := report.unavailable ++ [entry.path] }
      | .ok bytes =>
        let t ← Prog.ofExcept (ioResult (create host (newFile bytes) (names relative) t))
        restoreEntries rest t
          { report with
            filesWritten := report.filesWritten + 1
            bytesWritten := report.bytesWritten + F.byteLength bytes }

variable [DecidableEq Hash]

/-- The set with its references pointed into the folder, as a snapshot. -/
def repointed (snapshot : ProjectSnapshot Bytes) (plan : VendorPlan) (destination : HostPath) :
    Except String (ProjectSnapshot Bytes × RewriteReport) := do
  let portable ← ProjectSnapshot.portable F C snapshot
  match portable with
  | none => projectFormatError "Ableton snapshot has no wrapper"
  | some p => do
    let rewriting := rewriteFileRefs p.project.root plan destination
    let rewritten ← ProjectSnapshot.fromPortable F C blob { p with project := ⟨rewriting.1⟩ }
    return (rewritten, rewriting.2)

/-- `restore_bundle`. With the report it returns what the destination then leads to. -/
def restoreBundle (commit : Commit Hash) (destination : HostPath) (place : Option (DirTree Bytes))
    (liveSetName : FileName) : Reading Bytes Hash (DirTree Bytes × RestoreReport) := do
  let snapshotBytes ← Prog.run (ReadCall.getBlob commit.tree.snapshot) Error.text
  let snapshot ← Prog.ofExcept (ProjectSnapshot.fromCanonicalBytes F C snapshotBytes)
  if snapshot.format ≠ .abletonLiveSet then
    Prog.ofExcept (projectFormatError ("cannot restore a " ++ snapshot.format.display ++
      " project as an Ableton project folder"))
  else do
    let manifestBytes ← Prog.run (ReadCall.getBlob commit.tree.samples) Error.text
    let manifest ← Prog.ofExcept (wrapped "serde" (F.decodeManifest manifestBytes))
    Prog.ofExcept (ensureSafeDestination destination liveSetName.name place)
    let t ← Prog.ofExcept (ioResult (createDestination host place))
    let (t, report) ← restoreEntries F host manifest.entries t (.start destination liveSetName)
    let (rewritten, rewrite) ← Prog.ofExcept
      (repointed F C blob snapshot (manifestPlan manifest) destination)
    let bytes ← Prog.ofExcept (rewritten.restoreBytes F C)
    let t ← Prog.ofExcept (ioResult (create host (newFile bytes) [liveSetName.name] t))
    let t ← Prog.ofExcept (ioResult (create host newFolder [projectInfoDir] t))
    pure (t, { report with rewrite })

end Program

/-! The captured files. -/

section Captured
variable {Bytes Hash : Type} {F : Formats Bytes Hash} {host : Host} {answer : Answers Bytes Hash}
variable {files : List (List String × Bytes)} {t : DirTree Bytes} {report : RestoreReport}
variable {entry : SampleEntry Hash} {entries : List (SampleEntry Hash)}

/-- The file for an entry, if its path is safe and the provider gives it. -/
def madeFile (answer : Answers Bytes Hash) (entry : SampleEntry Hash) :
    Option (List String × Bytes) :=
  (safeRelativePath .posix entry.path).bind fun relative =>
    (answer (.getBlob entry.hash)).toOption.map fun bytes => (names relative, bytes)

def madeFiles (answer : Answers Bytes Hash) (entries : List (SampleEntry Hash)) :
    List (List String × Bytes) :=
  entries.filterMap (madeFile answer)

/-- The paths of the other entries. -/
def withheld (answer : Answers Bytes Hash) (entries : List (SampleEntry Hash)) : List String :=
  (entries.filter fun entry => (madeFile answer entry).isNone).map SampleEntry.path

/-- The report once these entries are dealt with. -/
def RestoreReport.after (F : Formats Bytes Hash) (answer : Answers Bytes Hash)
    (entries : List (SampleEntry Hash)) (report : RestoreReport) : RestoreReport :=
  { report with
    filesWritten := report.filesWritten + (madeFiles answer entries).length
    bytesWritten := report.bytesWritten +
      ((madeFiles answer entries).map fun file => F.byteLength file.2).sum
    unavailable := report.unavailable ++ withheld answer entries }

/-- A safe path consists of the names in its text. -/
theorem names_safeRelativePath {path : String} {relative : Path}
    (h : safeRelativePath .posix path = some relative) :
    names relative = pushed (segments isAnySlash path) ∧ names relative ≠ [] := by
  obtain ⟨hpushed, hne⟩ := safeRelativePath_some h
  have heq := pushSegments_eq (fun part => ordinary_of_segment) (.inl rfl) hpushed
  rw [List.nil_append] at heq
  subst heq
  rw [names_map]
  exact ⟨rfl, fun hnil => hne (by rw [hnil, List.map_nil])⟩

/-- One entry of the list. -/
theorem restoreEntries_cons (rest : List (SampleEntry Hash)) :
    (restoreEntries F host (entry :: rest) t report).eval answer =
      match madeFile answer entry with
      | none => (restoreEntries F host rest t
          { report with unavailable := report.unavailable ++ [entry.path] }).eval answer
      | some file =>
        (ioResult (create host (newFile file.2) file.1 t)).bind fun t =>
          (restoreEntries F host rest t
            { report with
              filesWritten := report.filesWritten + 1
              bytesWritten := report.bytesWritten + F.byteLength file.2 }).eval answer := by
  rw [restoreEntries, madeFile]
  cases safeRelativePath .posix entry.path with
  | none => rfl
  | some relative =>
    dsimp only
    rw [Prog.eval_attempt_bind]
    cases answer (.getBlob entry.hash) with
    | error e => rfl
    | ok bytes =>
      dsimp only [Option.bind_some, Except.toOption, Option.map_some]
      cases create host (newFile bytes) (names relative) t <;> rfl

theorem madeFile_ne_nil {file : List String × Bytes} (h : madeFile answer entry = some file) :
    file.1 ≠ [] := by
  obtain ⟨relative, hrelative, hfile⟩ := Option.bind_eq_some_iff.mp h
  obtain ⟨bytes, -, rfl⟩ := Option.map_eq_some_iff.mp hfile
  exact (names_safeRelativePath hrelative).2

theorem RestoreReport.after_none (h : madeFile answer entry = none) :
    { report with unavailable := report.unavailable ++ [entry.path] }.after F answer entries =
      report.after F answer (entry :: entries) := by
  simp [after, madeFiles, withheld, h]

theorem RestoreReport.after_some {file : List String × Bytes}
    (h : madeFile answer entry = some file) :
    RestoreReport.after F answer entries { report with
        filesWritten := report.filesWritten + 1
        bytesWritten := report.bytesWritten + F.byteLength file.2 } =
      report.after F answer (entry :: entries) := by
  simp [after, madeFiles, withheld, h]
  omega

/-- The loop ends well exactly when each of the files can be created. -/
theorem restoreEntries_ok_iff (h : Laid files [[]] (some t)) :
    (∃ result, (restoreEntries F host entries t report).eval answer = .ok result) ↔
      Creatable host files (madeFiles answer entries) := by
  induction entries generalizing files t report with
  | nil => exact ⟨fun _ => creatable_nil, fun _ => ⟨(t, report), rfl⟩⟩
  | cons entry rest ih =>
    rw [restoreEntries_cons, madeFiles, List.filterMap_cons]
    cases hfile : madeFile answer entry with
    | none => exact ih h
    | some file =>
      dsimp only
      rw [creatable_cons_iff, ← exists_newFile_iff h (madeFile_ne_nil hfile)]
      constructor
      · rintro ⟨result, hresult⟩
        obtain ⟨t', ht', hrest⟩ := bind_ok_iff.mp hresult
        have ht' := ioResult_ok_iff.mp ht'
        exact ⟨⟨t', ht'⟩, (ih (laid_created h ht')).mp ⟨result, hrest⟩⟩
      · rintro ⟨⟨t', ht'⟩, hrest⟩
        obtain ⟨result, hresult⟩ := (ih (laid_created h ht')).mpr hrest
        exact ⟨result, bind_ok_iff.mpr ⟨t', ioResult_ok_iff.mpr ht', hresult⟩⟩

/-- What it leaves, and what it reports. -/
theorem restoreEntries_spec (h : Laid files [[]] (some t)) {t' : DirTree Bytes}
    {report' : RestoreReport}
    (hresult : (restoreEntries F host entries t report).eval answer = .ok (t', report')) :
    Laid ((madeFiles answer entries).reverse ++ files) [[]] (some t') ∧
      report' = report.after F answer entries := by
  induction entries generalizing files t report with
  | nil =>
    cases hresult
    exact ⟨h, by simp [RestoreReport.after, madeFiles, withheld]⟩
  | cons entry rest ih =>
    rw [restoreEntries_cons] at hresult
    rw [madeFiles, List.filterMap_cons]
    cases hfile : madeFile answer entry with
    | none =>
      rw [hfile] at hresult
      rw [← RestoreReport.after_none hfile]
      exact ih h hresult
    | some file =>
      rw [hfile] at hresult
      obtain ⟨t₁, ht₁, hrest⟩ := bind_ok_iff.mp hresult
      obtain ⟨hlaid, hreport⟩ := ih (laid_created h (ioResult_ok_iff.mp ht₁)) hrest
      rw [← RestoreReport.after_some hfile]
      dsimp only
      rw [List.reverse_cons, List.append_assoc]
      exact ⟨hlaid, hreport⟩

/-- Only the entries of the list are asked for. -/
theorem asked_restoreEntries : ∀ call ∈ (restoreEntries F host entries t report).asked answer,
    call ∈ (entries.map SampleEntry.hash).map ReadCall.getBlob := by
  induction entries generalizing t report with
  | nil => exact fun _ hcall => absurd hcall List.not_mem_nil
  | cons entry rest ih =>
    intro call hcall
    rw [restoreEntries] at hcall
    cases hsafe : safeRelativePath .posix entry.path with
    | none =>
      rw [hsafe] at hcall
      exact List.mem_cons_of_mem _ (ih call hcall)
    | some relative =>
      rw [hsafe] at hcall
      dsimp only at hcall
      rw [Prog.asked_attempt_bind] at hcall
      rcases List.mem_cons.mp hcall with rfl | hcall
      · exact List.mem_cons_self
      refine List.mem_cons_of_mem _ ?_
      cases hanswer : answer (.getBlob entry.hash) with
      | error e =>
        rw [hanswer] at hcall
        exact ih call hcall
      | ok bytes =>
        rw [hanswer] at hcall
        dsimp only at hcall
        cases hcreate : create host (newFile bytes) (names relative) t with
        | error e =>
          rw [hcreate] at hcall
          exact absurd hcall List.not_mem_nil
        | ok t' =>
          rw [hcreate] at hcall
          exact ih call hcall

end Captured

/-! The set. -/

section Kept

theorem kept_withAttribute {e : XmlElement} (h : e.Kept) (value : String) :
    (e.withAttribute "Value" value).Kept := by
  cases e with
  | mk tag id attributes children =>
    obtain ⟨hsorted, hid, hchildren⟩ := h
    exact ⟨sorted_insert hsorted _ _, by rw [attributeId_insert (by decide +kernel), hid], hchildren⟩

theorem contentsKept_setFirst (name value : String) {contents : List XmlContent}
    (h : ContentsKept contents) : ContentsKept (XmlElement.setFirst name value contents) := by
  induction contents with
  | nil =>
    exact ⟨⟨List.pairwise_singleton _ _, (attributeId_insert (by decide +kernel) value []).symm,
      trivial⟩, trivial⟩
  | cons content rest ih =>
    cases content with
    | element e =>
      unfold XmlElement.setFirst
      split
      · exact ⟨kept_withAttribute h.1 value, h.2⟩
      · exact ⟨h.1, ih h.2⟩
    | text _ => exact ⟨h.1, ih h.2⟩
    | cdata _ => exact ⟨h.1, ih h.2⟩
    | comment _ => exact ih h

theorem keeps_setChildValue (name value : String) {e : XmlElement} (h : e.Kept) :
    (e.setChildValue name value).Kept := by
  cases e with
  | mk tag id attributes children => exact ⟨h.1, h.2.1, contentsKept_setFirst name value h.2.2⟩

theorem keeps_rewrittenRef {e : XmlElement} (h : e.Kept) (plan : VendorPlan)
    (projectRoot : HostPath) : (rewrittenRef plan projectRoot e).Kept := by
  unfold rewrittenRef Outcome.write
  split
  · exact keeps_setChildValue _ _ (keeps_setChildValue _ _ (keeps_setChildValue _ _ h))
  · exact h

mutual
/-- A walk that keeps references as a parser makes them does so with the set. -/
theorem keeps_visitFileRefs {S : Type} {visit : XmlElement → S → XmlElement × S}
    (hvisit : ∀ e s, e.Kept → (visit e s).1.Kept) (e : XmlElement) (s : S) (h : e.Kept) :
    (visitFileRefs visit e s).1.Kept := by
  cases e with
  | mk tag id attributes children =>
    unfold visitFileRefs
    split
    · exact hvisit _ s h
    · exact ⟨h.1, h.2.1, keeps_visitContents hvisit children s h.2.2⟩
theorem keeps_visitContents {S : Type} {visit : XmlElement → S → XmlElement × S}
    (hvisit : ∀ e s, e.Kept → (visit e s).1.Kept) (contents : List XmlContent) (s : S)
    (h : ContentsKept contents) : ContentsKept (visitContents visit contents s).1 := by
  cases contents with
  | nil => exact h
  | cons content rest =>
    cases content with
    | element e =>
      exact ⟨keeps_visitFileRefs hvisit e s h.1, keeps_visitContents hvisit rest _ h.2⟩
    | text _ => exact ⟨h.1, keeps_visitContents hvisit rest s h.2⟩
    | cdata _ => exact ⟨h.1, keeps_visitContents hvisit rest s h.2⟩
    | comment _ => exact keeps_visitContents hvisit rest s h
end

/-- A rewritten set is one that a parser could have made. -/
theorem parsed_rewriteFileRefs {Bytes Hash : Type} {C : Codecs Bytes Hash}
    (hC : C.toCharClasses.HasLetters) {document : XmlDocument} (h : document.Parsed C)
    (plan : VendorPlan) (projectRoot : HostPath) :
    (XmlDocument.mk (rewriteFileRefs document.root plan projectRoot).1).Parsed C where
  kept := by
    refine keeps_visitFileRefs (fun e s he => ?_) _ _ h.kept
    rw [fst_rewriteOne]
    exact keeps_rewrittenRef he plan projectRoot
  valid := by
    refine validate_visitFileRefs (fun e s he => ?_) _ _ h.valid
    rw [fst_rewriteOne]
    exact validate_rewrittenRef hC he plan projectRoot

end Kept

section Set
variable {Bytes Hash : Type} {F : Formats Bytes Hash} {C : Codecs Bytes Hash}
variable {R : SourceCodecs Bytes} {blob : Value → Except String Bytes} {limit : Nat}
variable {document : XmlDocument} {bytes : Bytes}

theorem readPortable_setWrapper (h : document.Parsed C) :
    readPortable C ((setWrapper Hash document).toValue F) = some (setWrapper Hash document) :=
  (storable_setWrapper h).read nofun

theorem snapshotFormat_setWrapper (h : document.Parsed C) :
    snapshotFormat C ((setWrapper Hash document).toValue F) = .ok .abletonLiveSet := by
  have hmarker : portableSnapshotFormat ((setWrapper Hash document).toValue F) =
      .ok (some .abletonLiveSet) := by
    rw [portableSnapshotFormat, get_portable_marker, get_portable_format]
    rfl
  rw [snapshotFormat, hmarker, readPortable_setWrapper h]
  refine bind_ok_iff.mpr ⟨some .abletonLiveSet, rfl, ?_⟩
  simp only [Option.getD_some, reduceCtorEq, if_false, ne_eq, not_false_eq_true, if_true]
  exact bind_ok_iff.mpr ⟨_, rfl, bind_ok_iff.mpr ⟨(), validate_setWrapper h, rfl⟩⟩

/-- A stored set that can be read at all is read as the set it was. -/
theorem fromCanonicalBytes_setWrapper (hJ : F.ReadsBack limit) (hB : F.ReadsBlobs blob limit)
    (h : document.Parsed C) (hbytes : blob ((setWrapper Hash document).toValue F) = .ok bytes)
    {v : Value} (hv : F.decodeValue bytes = .ok v) :
    ∃ text, ProjectSnapshot.fromCanonicalBytes F C bytes = .ok ⟨.abletonLiveSet, text, []⟩ ∧
      ProjectSnapshot.portable F C ⟨.abletonLiveSet, text, []⟩ =
        .ok (some (setWrapper Hash document)) := by
  have hdepth : ((setWrapper Hash document).toValue F).depth ≤ limit := by
    by_contra hdeep
    exact hB.parse_refused (storable_setWrapper h) hbytes hdeep v (parseJson_ok_iff.mpr hv)
  obtain ⟨w, hw, heq⟩ := hB.printed _ _ hbytes (wf_portableValue (storable_setWrapper h)) hdepth
  obtain rfl : w = v := Except.ok.inj (hw.symm.trans hv)
  obtain ⟨hwf, hlimit⟩ := hJ.decoded bytes w hw
  obtain ⟨u, hu, heq'⟩ := hJ.encoded w hwf hlimit
  refine ⟨F.encodeValue w, bind_ok_iff.mpr ⟨w, parseJson_ok_iff.mpr hw, bind_ok_iff.mpr
    ⟨.abletonLiveSet, ?_, rfl⟩⟩, ?_⟩
  · rw [← snapshotFormat_unfloat, heq, snapshotFormat_unfloat, snapshotFormat_setWrapper h]
  · refine bind_ok_iff.mpr ⟨u, parseJson_ok_iff.mpr hu, bind_ok_iff.mpr
      ⟨setWrapper Hash document, serdeResult_ok_iff.mpr ?_, bind_ok_iff.mpr
        ⟨(), validate_setWrapper h, rfl⟩⟩⟩
    rw [← readPortable_unfloat, heq', heq, readPortable_unfloat, readPortable_setWrapper h]

/-- The set that is written for a document. -/
def repointedSet (document : XmlDocument) (plan : VendorPlan) (destination : HostPath) :
    XmlDocument :=
  ⟨(rewriteFileRefs document.root plan destination).1⟩

/-- The document is stored, and not nested too deeply to be read again. -/
def Storable (F : Formats Bytes Hash) (blob : Value → Except String Bytes) (limit : Nat)
    (document : XmlDocument) : Prop :=
  (∃ bytes, blob ((setWrapper Hash document).toValue F) = .ok bytes) ∧
    ((setWrapper Hash document).toValue F).depth ≤ limit

/-- A compressed set that is read as what was written for the document. -/
def OpensAs (F : Formats Bytes Hash) (R : SourceCodecs Bytes) (packed : Bytes)
    (document : XmlDocument) : Prop :=
  R.isGzip packed = true ∧ ∃ xml, Streams F (R.gunzip packed) xml ∧
    R.readXml xml = delivered (.decl :: document.root.events)

variable [DecidableEq Hash] {plan : VendorPlan} {destination : HostPath}
variable {snapshot : ProjectSnapshot Bytes}

theorem repointed_ok_iff (hC : C.toCharClasses.HasLetters) (h : document.Parsed C)
    (hportable : snapshot.portable F C = .ok (some (setWrapper Hash document)))
    {result : ProjectSnapshot Bytes × RewriteReport} :
    repointed F C blob snapshot plan destination = .ok result ↔ ∃ bytes,
      blob ((setWrapper Hash (repointedSet document plan destination)).toValue F) = .ok bytes ∧
        result = (⟨.abletonLiveSet, bytes, []⟩, (rewriteFileRefs document.root plan destination).2) := by
  have hvalid : (setWrapper Hash (repointedSet document plan destination)).validate C = .ok () :=
    validate_setWrapper (parsed_rewriteFileRefs hC h plan destination)
  have heq : repointed F C blob snapshot plan destination =
      (blob ((setWrapper Hash (repointedSet document plan destination)).toValue F)).map fun bytes =>
        (⟨.abletonLiveSet, bytes, []⟩, (rewriteFileRefs document.root plan destination).2) := by
    rw [repointed, hportable]
    change ((setWrapper Hash (repointedSet document plan destination)).validate C >>= fun _ =>
      blob ((setWrapper Hash (repointedSet document plan destination)).toValue F) >>= _) >>= _ = _
    rw [hvalid]
    cases blob ((setWrapper Hash (repointedSet document plan destination)).toValue F) <;> rfl
  rw [heq, map_ok_iff]
  exact exists_congr fun bytes => and_congr_right fun _ => eq_comm

/-- The set is written out exactly if it is storable. -/
theorem restoreBytes_stored_iff (hB : F.ReadsBlobs blob limit) (hR : ReadsXml F C R)
    (h : document.Parsed C) (hbytes : blob ((setWrapper Hash document).toValue F) = .ok bytes) :
    (∃ packed, (ProjectSnapshot.mk .abletonLiveSet bytes []).restoreBytes F C = .ok packed) ↔
      ((setWrapper Hash document).toValue F).depth ≤ limit := by
  constructor
  · rintro ⟨packed, hpacked⟩
    by_contra hdeep
    obtain ⟨v, hv, -⟩ := bind_ok_iff.mp hpacked
    exact hB.parse_refused (storable_setWrapper h) hbytes hdeep v hv
  · intro hdepth
    obtain ⟨-, packed, -, -, -, -, hpacked⟩ := restoreBytes_setWrapper hB hR h hbytes hdepth
    exact ⟨packed, hpacked⟩

theorem restoreBytes_opens (hB : F.ReadsBlobs blob limit) (hR : ReadsXml F C R)
    (h : document.Parsed C) (hbytes : blob ((setWrapper Hash document).toValue F) = .ok bytes)
    {packed : Bytes}
    (hpacked : (ProjectSnapshot.mk .abletonLiveSet bytes []).restoreBytes F C = .ok packed) :
    OpensAs F R packed document := by
  have hdepth := (restoreBytes_stored_iff hB hR h hbytes).mp ⟨packed, hpacked⟩
  obtain ⟨xml, packed', -, hread, hgzip, hstreams, hpacked'⟩ :=
    restoreBytes_setWrapper hB hR h hbytes hdepth
  obtain rfl : packed' = packed := Except.ok.inj (hpacked'.symm.trans hpacked)
  exact ⟨hgzip, xml, hstreams, hread⟩

end Set

/-! The folder. -/

section Folder
variable {Bytes Hash : Type} {F : Formats Bytes Hash} {C : Codecs Bytes Hash}
variable {R : SourceCodecs Bytes} {blob : Value → Except String Bytes} {limit : Nat} {host : Host}
variable {answer : Answers Bytes Hash} {destination : HostPath} {place : Option (DirTree Bytes)}
variable {liveSetName : FileName} {t : DirTree Bytes} {report : RestoreReport}

/-- The destination is missing or an empty folder. -/
def Fresh (host : Host) : Option (DirTree Bytes) → Prop
  | none => host.creates [] = true
  | some t => t.listed = some []

theorem fresh_iff {name : String} :
    ensureSafeDestination destination name place = .ok () ∧ createDestination host place = .ok t ↔
      Fresh host place ∧ t = .folder [] := by
  cases place with
  | none => by_cases hroot : host.creates [] = true <;>
      simp [ensureSafeDestination, createDestination, Fresh, hroot, eq_comm]
  | some place =>
    have hdangling : place.Dangling → place.listed = none := fun h => by
      rw [DirTree.listed, h]
    rw [ensureSafeDestination, createDestination, Fresh]
    cases hlisted : place.listed with
    | none => simp
    | some entries =>
      have hnot : ¬ place.Dangling := fun h => by
        rw [hdangling h] at hlisted
        cases hlisted
      rw [if_neg hnot]
      cases entries <;> simp [projectFormatError, eq_comm]

/-- Where the file for an entry is written. -/
def safePath (entry : SampleEntry Hash) : Option (List String) :=
  (safeRelativePath .posix entry.path).map names

/-- The paths can be created as files in an empty folder, and the project folder's own folder
beside them. -/
structure Fits (host : Host) (paths : List (List String)) : Prop where
  creates : ∀ path ∈ [projectInfoDir] :: paths, host.creates path = true
  apart : paths.Pairwise FileTree.Apart
  info : [projectInfoDir] ∉ paths

theorem mem_madeFiles {entries : List (SampleEntry Hash)} {path : List String} {content : Bytes} :
    (path, content) ∈ madeFiles answer entries ↔ ∃ entry ∈ entries, safePath entry = some path ∧
      answer (.getBlob entry.hash) = .ok content := by
  rw [madeFiles, List.mem_filterMap]
  refine exists_congr fun entry => and_congr_right fun _ => ?_
  unfold madeFile safePath
  cases safeRelativePath .posix entry.path with
  | none => simp
  | some relative =>
    cases answer (.getBlob entry.hash) <;> simp [Except.toOption]

/-- Every entry is given in the size that the list has for it. -/
def GivesAll (F : Formats Bytes Hash) (answer : Answers Bytes Hash)
    (entries : List (SampleEntry Hash)) : Prop :=
  ∀ entry ∈ entries, ∃ bytes, Serves F answer entry.hash bytes ∧ F.byteLength bytes = entry.size

/-- What is reported of a list when every entry is given. -/
def reportOf (entries : List (SampleEntry Hash)) (report : RestoreReport) : RestoreReport :=
  { report with
    filesWritten := report.filesWritten + (entries.filterMap safePath).length
    bytesWritten := report.bytesWritten +
      ((entries.filter fun entry => (safePath entry).isSome).map SampleEntry.size).sum
    unavailable := report.unavailable ++
      (entries.filter fun entry => (safePath entry).isNone).map SampleEntry.path }

theorem GivesAll.made {entries : List (SampleEntry Hash)} (h : GivesAll F answer entries)
    (report : RestoreReport) :
    (madeFiles answer entries).map Prod.fst = entries.filterMap safePath ∧
      report.after F answer entries = reportOf entries report := by
  have hfile : ∀ entry ∈ entries, ∃ bytes, F.byteLength bytes = entry.size ∧
      madeFile answer entry = (safePath entry).map fun path => (path, bytes) := by
    intro entry hentry
    obtain ⟨bytes, hserves, hsize⟩ := h entry hentry
    refine ⟨bytes, hsize, ?_⟩
    unfold madeFile safePath
    rw [hserves.1]
    cases safeRelativePath .posix entry.path <;> rfl
  clear h
  induction entries generalizing report with
  | nil => exact ⟨rfl, rfl⟩
  | cons entry rest ih =>
    obtain ⟨⟨bytes, hsize, hmade⟩, hrest⟩ := List.forall_mem_cons.mp hfile
    cases hpath : safePath entry with
    | none =>
      rw [hpath, Option.map_none] at hmade
      obtain ⟨hpaths, hreport⟩ := ih
        { report with unavailable := report.unavailable ++ [entry.path] } hrest
      rw [RestoreReport.after_none hmade] at hreport
      rw [hreport]
      refine ⟨?_, ?_⟩
      · simpa [madeFiles, hmade, hpath] using hpaths
      · simp [reportOf, hpath]
    | some path =>
      rw [hpath, Option.map_some] at hmade
      obtain ⟨hpaths, hreport⟩ := ih
        { report with
          filesWritten := report.filesWritten + 1
          bytesWritten := report.bytesWritten + F.byteLength bytes } hrest
      rw [RestoreReport.after_some hmade] at hreport
      rw [hreport]
      refine ⟨?_, ?_⟩
      · simpa [madeFiles, hmade, hpath] using hpaths
      · simp [reportOf, hpath, hsize]
        omega

/-- The set and the folder's own folder are created last. -/
theorem exists_finish_iff {files : List (List String × Bytes)} {live : Bytes}
    (h : Laid files [[]] (some t)) (hne : ∀ f ∈ files, f.1 ≠ []) :
    (∃ t₁ t₂, create host (newFile live) [liveSetName.name] t = .ok t₁ ∧
        create host newFolder [projectInfoDir] t₁ = .ok t₂) ↔
      (host.creates [liveSetName.name] = true ∧
        ∀ f ∈ files, FileTree.Apart f.1 [liveSetName.name]) ∧
      host.creates [projectInfoDir] = true ∧
        ∀ path ∈ [liveSetName.name] :: files.map Prod.fst, path ≠ [projectInfoDir] := by
  have hinfo : ∀ path : List String, path ≠ [] →
      (¬ path <+: [projectInfoDir] ↔ path ≠ [projectInfoDir]) := by
    intro path hpath
    obtain ⟨name, rest, rfl⟩ := List.exists_cons_of_ne_nil hpath
    simp [List.cons_prefix_cons]
  have hlive : ([liveSetName.name] : List String) ≠ [] := List.cons_ne_nil _ _
  rw [← exists_newFile_iff h hlive]
  have hstep : ∀ t₁, create host (newFile live) [liveSetName.name] t = .ok t₁ →
      ((∃ t₂, create host newFolder [projectInfoDir] t₁ = .ok t₂) ↔
        host.creates [projectInfoDir] = true ∧
          ∀ path ∈ [liveSetName.name] :: files.map Prod.fst, path ≠ [projectInfoDir]) := by
    intro t₁ ht₁
    rw [exists_create_iff, (laid_created h ht₁).newFolder_isSome_iff, and_comm]
    simp only [List.forall_mem_cons, List.forall_mem_map]
    rw [hinfo _ hlive]
    exact and_congr_right fun _ => and_congr_right fun _ =>
      forall₂_congr fun f hf => hinfo f.1 (hne f hf)
  constructor
  · rintro ⟨t₁, t₂, ht₁, ht₂⟩
    exact ⟨⟨t₁, ht₁⟩, (hstep t₁ ht₁).mp ⟨t₂, ht₂⟩⟩
  · rintro ⟨⟨t₁, ht₁⟩, hrest⟩
    obtain ⟨t₂, ht₂⟩ := (hstep t₁ ht₁).mpr hrest
    exact ⟨t₁, t₂, ht₁, ht₂⟩

theorem fits_iff {made : List (List String × Bytes)} :
    Fits host (made.map Prod.fst ++ [[liveSetName.name]]) ↔ Creatable host [] made ∧
      (host.creates [liveSetName.name] = true ∧
        ∀ f ∈ made, FileTree.Apart f.1 [liveSetName.name]) ∧
      host.creates [projectInfoDir] = true ∧
        ∀ path ∈ [liveSetName.name] :: made.map Prod.fst, path ≠ [projectInfoDir] := by
  constructor
  · rintro ⟨hcreates, hapart, hinfo⟩
    obtain ⟨hpairs, -, hbeside⟩ := List.pairwise_append.mp hapart
    have hmem : ∀ path, path ∈ [liveSetName.name] :: made.map Prod.fst →
        path ∈ made.map Prod.fst ++ [[liveSetName.name]] := fun path hpath => by
      simpa [or_comm] using hpath
    refine ⟨⟨fun f hf => ?_, List.pairwise_map.mp hpairs, by simp⟩, ⟨?_, fun f hf => ?_⟩,
      hcreates _ List.mem_cons_self, fun path hpath heq => hinfo (heq ▸ hmem path hpath)⟩
    · exact hcreates _ (List.mem_cons_of_mem _ (List.mem_append_left _ (List.mem_map_of_mem hf)))
    · exact hcreates _ (List.mem_cons_of_mem _ (hmem _ List.mem_cons_self))
    · exact hbeside _ (List.mem_map_of_mem hf) _ List.mem_cons_self
  · rintro ⟨h, ⟨hlive, hbeside⟩, hfolder, hinfo⟩
    refine ⟨List.forall_mem_cons.mpr ⟨hfolder, ?_⟩, List.pairwise_append.mpr
      ⟨List.pairwise_map.mpr h.apart, List.pairwise_singleton _ _, ?_⟩, fun hmem => ?_⟩
    · rw [List.forall_mem_append, List.forall_mem_map]
      exact ⟨h.creates, fun path hpath => List.mem_singleton.mp hpath ▸ hlive⟩
    · rw [List.forall_mem_map]
      exact fun f hf path hpath => List.mem_singleton.mp hpath ▸ hbeside f hf
    · exact hinfo [projectInfoDir] (by simpa [or_comm] using hmem) rfl

/-- A place for a path is the path of an entry that was gathered from there. -/
theorem manifestPlan_destinationFor {manifest : SampleManifest Hash} {reference path : String}
    (h : (manifestPlan manifest).destinationFor reference = some path) :
    ∃ entry ∈ manifest.entries, entry.origin = some reference ∧ entry.path = path := by
  obtain ⟨placement, hplacement, heq⟩ :=
    (mem_foldl_insert (mem_of_get? h)).resolve_left List.not_mem_nil
  obtain ⟨entry, hentry, hplaced⟩ := List.mem_filterMap.mp hplacement
  obtain ⟨origin, horigin, rfl⟩ := Option.map_eq_some_iff.mp hplaced
  obtain ⟨rfl, rfl⟩ := Prod.mk.inj heq
  exact ⟨entry, hentry, horigin, rfl⟩

/-- The project folder of a version, as it was restored. -/
structure RestoredBundle (F : Formats Bytes Hash) (R : SourceCodecs Bytes) (document : XmlDocument)
    (manifest : SampleManifest Hash) (destination : HostPath) (liveSetName : FileName)
    (t : DirTree Bytes) (report : RestoreReport) : Prop where
  reported : report =
    { reportOf manifest.entries (.start destination liveSetName) with
      rewrite := (rewriteFileRefs document.root (manifestPlan manifest) destination).2 }
  liveSet : ∃ packed, treeAt [liveSetName.name] (some t) = some (.file packed) ∧
    OpensAs F R packed (repointedSet document (manifestPlan manifest) destination)
  file : ∀ path content, path ≠ [liveSetName.name] →
    (treeAt path (some t) = some (.file content) ↔
      ∃ entry ∈ manifest.entries, safePath entry = some path ∧ F.contentHash content = entry.hash)
  folder : ∀ path, (∃ entries, treeAt path (some t) = some (.folder entries)) ↔
    path = [] ∨ path = [projectInfoDir] ∨ ∃ entry ∈ manifest.entries, ∃ target,
      safePath entry = some target ∧ path <+: target ∧ path ≠ target
  only : ∀ path u, treeAt path (some t) = some u →
    (∃ content, u = .file content) ∨ ∃ entries, u = .folder entries
  /-- A reference that was written to leads to the file that was gathered for it. -/
  references : ∀ e ∈ fileRefs document.root, ∀ path, Matches (manifestPlan manifest) e path →
    ∃ entry ∈ manifest.entries, entry.origin = some (lookedUp e) ∧ entry.path = path ∧
      PointsAt destination path (rewrittenRef (manifestPlan manifest) destination e) ∧
        (path ∈ report.unavailable ∨ ∃ target content, safePath entry = some target ∧
          treeAt target (some t) = some (.file content) ∧ F.contentHash content = entry.hash)

/-- An entry of the list is a file or is reported. -/
theorem GivesAll.file_or_reported {manifest : SampleManifest Hash}
    (h : GivesAll F answer manifest.entries) {entry : SampleEntry Hash}
    (hentry : entry ∈ manifest.entries) (report : RestoreReport) :
    entry.path ∈ (reportOf manifest.entries report).unavailable ∨ ∃ target content,
      safePath entry = some target ∧ (target, content) ∈ madeFiles answer manifest.entries ∧
        F.contentHash content = entry.hash := by
  cases hpath : safePath entry with
  | none =>
    refine .inl (List.mem_append_right _ (List.mem_map_of_mem (List.mem_filter.mpr ⟨hentry, ?_⟩)))
    rw [hpath]
    rfl
  | some target =>
    obtain ⟨content, hserves, -⟩ := h entry hentry
    exact .inr ⟨target, content, rfl, mem_madeFiles.mpr ⟨entry, hentry, hpath, hserves.1⟩, hserves.2⟩

theorem GivesAll.restoredBundle (hF : F.Lawful) {manifest : SampleManifest Hash}
    (h : GivesAll F answer manifest.entries) {document : XmlDocument} {live : Bytes}
    (hlive : OpensAs F R live (repointedSet document (manifestPlan manifest) destination))
    (hlaid : Laid (([liveSetName.name], live) :: ((madeFiles answer manifest.entries).reverse ++ []))
      [[projectInfoDir], []] (some t)) :
    RestoredBundle F R document manifest destination liveSetName t
      { reportOf manifest.entries (.start destination liveSetName) with
        rewrite := (rewriteFileRefs document.root (manifestPlan manifest) destination).2 } where
  reported := rfl
  liveSet := ⟨live, (hlaid.file _ _).mpr List.mem_cons_self, hlive⟩
  file path content hne := by
    rw [hlaid.file, List.mem_cons, Prod.mk.injEq, List.append_nil, List.mem_reverse, mem_madeFiles]
    simp only [hne, false_and, false_or]
    refine exists_congr fun entry => and_congr_right fun hentry => and_congr_right fun _ => ?_
    obtain ⟨bytes, hserves, -⟩ := h entry hentry
    rw [hserves.1, ← hserves.2, Except.ok.injEq, eq_comm]
    exact hF.hash_injective.eq_iff.symm
  folder path := by
    have hmade : (∃ f ∈ madeFiles answer manifest.entries, path <+: f.1 ∧ path ≠ f.1) ↔
        ∃ entry ∈ manifest.entries, ∃ target, safePath entry = some target ∧ path <+: target ∧
          path ≠ target := by
      constructor
      · rintro ⟨⟨target, content⟩, hf, hbegins⟩
        obtain ⟨entry, hentry, hpath, -⟩ := mem_madeFiles.mp hf
        exact ⟨entry, hentry, target, hpath, hbegins⟩
      · rintro ⟨entry, hentry, target, hpath, hbegins⟩
        obtain ⟨content, hserves, -⟩ := h entry hentry
        exact ⟨(target, content), mem_madeFiles.mpr ⟨entry, hentry, hpath, hserves.1⟩, hbegins⟩
    have hsingle : ∀ name : String, path <+: [name] ↔ path = [] ∨ path = [name] := by
      intro name
      cases path with
      | nil => simp
      | cons first rest => simp [List.cons_prefix_cons]
    rw [hlaid.folder, List.append_nil, ← hmade]
    simp only [List.mem_cons, exists_eq_or_imp, List.mem_reverse, List.not_mem_nil, or_false,
      exists_eq_left, List.prefix_nil, hsingle]
    constructor
    · rintro ((⟨hpath | hpath, hne⟩ | hfile) | (hpath | hpath) | hpath)
      · exact .inl hpath
      · exact absurd hpath hne
      · exact .inr (.inr hfile)
      · exact .inl hpath
      · exact .inr (.inl hpath)
      · exact .inl hpath
    · rintro (hpath | hpath | hfile)
      · exact .inr (.inr hpath)
      · exact .inr (.inl (.inr hpath))
      · exact .inl (.inr hfile)
  only := hlaid.only
  references e _ path hmatches := by
    obtain ⟨entry, hentry, horigin, rfl⟩ := manifestPlan_destinationFor hmatches.2.2.2
    refine ⟨entry, hentry, horigin, rfl, ?_, ?_⟩
    · rw [rewrittenRef_of_matches hmatches]
      exact writeReference_pointsAt _ _ _
    · rcases h.file_or_reported hentry _ with hreported | ⟨target, content, hpath, hmem, hhash⟩
      · exact .inl hreported
      · refine .inr ⟨target, content, hpath, (hlaid.file _ _).mpr ?_, hhash⟩
        exact List.mem_cons_of_mem _ (List.mem_append_left _ (List.mem_reverse.mpr hmem))

variable [DecidableEq Hash]

/-- The steps of a restore, whatever the provider answers. -/
theorem restoreBundle_ok_iff {commit : Commit Hash} :
    (restoreBundle F C blob host commit destination place liveSetName).eval answer =
        .ok (t, report) ↔
      ∃ snapshotBytes snapshot manifestBytes manifest t₀ t₁ report₁ rewritten rewrite bytes t₂,
        (answer (.getBlob commit.tree.snapshot) = .ok snapshotBytes ∧
          ProjectSnapshot.fromCanonicalBytes F C snapshotBytes = .ok snapshot ∧
          snapshot.format = .abletonLiveSet) ∧
        (answer (.getBlob commit.tree.samples) = .ok manifestBytes ∧
          F.decodeManifest manifestBytes = .ok manifest) ∧
        (ensureSafeDestination destination liveSetName.name place = .ok () ∧
          createDestination host place = .ok t₀) ∧
        (restoreEntries F host manifest.entries t₀ (.start destination liveSetName)).eval answer =
          .ok (t₁, report₁) ∧
        (repointed F C blob snapshot (manifestPlan manifest) destination = .ok (rewritten, rewrite) ∧
          rewritten.restoreBytes F C = .ok bytes) ∧
        create host (newFile bytes) [liveSetName.name] t₁ = .ok t₂ ∧
          create host newFolder [projectInfoDir] t₂ = .ok t ∧ report = { report₁ with rewrite } := by
  unfold restoreBundle
  constructor
  · intro h
    obtain ⟨snapshotBytes, hsnapshotBytes, h⟩ := Prog.eval_bind_ok_iff.mp h
    obtain ⟨snapshot, hsnapshot, h⟩ := Prog.eval_bind_ok_iff.mp h
    split at h
    · rw [Prog.eval_ofExcept] at h
      cases h
    rename_i hformat
    obtain ⟨manifestBytes, hmanifestBytes, h⟩ := Prog.eval_bind_ok_iff.mp h
    obtain ⟨manifest, hmanifest, h⟩ := Prog.eval_bind_ok_iff.mp h
    obtain ⟨hsafe, h⟩ := Prog.eval_then_ok_iff.mp h
    obtain ⟨t₀, ht₀, h⟩ := Prog.eval_bind_ok_iff.mp h
    obtain ⟨⟨t₁, report₁⟩, hentries, h⟩ := Prog.eval_bind_ok_iff.mp h
    obtain ⟨⟨rewritten, rewrite⟩, hrewritten, h⟩ := Prog.eval_bind_ok_iff.mp h
    obtain ⟨bytes, hbytes, h⟩ := Prog.eval_bind_ok_iff.mp h
    obtain ⟨t₂, ht₂, h⟩ := Prog.eval_bind_ok_iff.mp h
    obtain ⟨t₃, ht₃, h⟩ := Prog.eval_bind_ok_iff.mp h
    rw [Prog.eval_ofExcept] at hsnapshot hmanifest hsafe ht₀ hrewritten hbytes ht₂ ht₃
    obtain ⟨rfl, rfl⟩ := Prod.mk.inj (Except.ok.inj h)
    exact ⟨snapshotBytes, snapshot, manifestBytes, manifest, t₀, t₁, report₁, rewritten, rewrite, bytes,
      t₂, ⟨Prog.eval_run_ok_iff.mp hsnapshotBytes, hsnapshot, not_not.mp hformat⟩,
      ⟨Prog.eval_run_ok_iff.mp hmanifestBytes, wrapped_ok_iff.mp hmanifest⟩,
      ⟨hsafe, ioResult_ok_iff.mp ht₀⟩, hentries, ⟨hrewritten, hbytes⟩, ioResult_ok_iff.mp ht₂,
      ioResult_ok_iff.mp ht₃, rfl⟩
  · rintro ⟨snapshotBytes, snapshot, manifestBytes, manifest, t₀, t₁, report₁, rewritten, rewrite, bytes,
      t₂, ⟨hsnapshotBytes, hsnapshot, hformat⟩, ⟨hmanifestBytes, hmanifest⟩, ⟨hsafe, ht₀⟩, hentries,
      ⟨hrewritten, hbytes⟩, ht₂, ht₃, rfl⟩
    have hread : ∀ {α : Type} {x : Except String α} {a : α}, x = .ok a →
        (Prog.ofExcept x : Reading Bytes Hash α).eval answer = .ok a :=
      fun hx => (Prog.eval_ofExcept _).trans hx
    rw [Prog.eval_bind (Prog.eval_run_ok_iff.mpr hsnapshotBytes), Prog.eval_bind (hread hsnapshot),
      if_neg (not_not.mpr hformat), Prog.eval_bind (Prog.eval_run_ok_iff.mpr hmanifestBytes),
      Prog.eval_bind (hread (wrapped_ok_iff.mpr hmanifest)), Prog.eval_bind (hread hsafe),
      Prog.eval_bind (hread (ioResult_ok_iff.mpr ht₀)), Prog.eval_bind hentries,
      Prog.eval_bind (hread hrewritten), Prog.eval_bind (hread hbytes),
      Prog.eval_bind (hread (ioResult_ok_iff.mpr ht₂)),
      Prog.eval_bind (hread (ioResult_ok_iff.mpr ht₃))]
    rfl

variable {commit : Commit Hash} {manifest : SampleManifest Hash} {bytes : Bytes}
variable {document : XmlDocument} {problems : Value → List AuruPm.IntegrityProblem}
variable {info : Value → Option Bytes}

/-- A restore asks for the snapshot, the list and its entries. -/
theorem asked_restoreBundle {manifestBytes : Bytes}
    (hbytes : answer (.getBlob commit.tree.samples) = .ok manifestBytes)
    (hmanifest : F.decodeManifest manifestBytes = .ok manifest) :
    ∀ call ∈ (restoreBundle F C blob host commit destination place liveSetName).asked answer,
      call ∈ (FilesystemProvider.commitBlobs commit manifest).map ReadCall.getBlob := by
  have hread : ∀ {α : Type} (x : Except String α), ∀ call ∈
      (Prog.ofExcept x : Reading Bytes Hash α).asked answer,
        call ∈ (FilesystemProvider.commitBlobs commit manifest).map ReadCall.getBlob := by
    intro α x call hcall
    rw [Prog.asked_ofExcept] at hcall
    exact absurd hcall List.not_mem_nil
  have hblob : ∀ hash ∈ FilesystemProvider.commitBlobs commit manifest, ∀ call ∈
      (Prog.run (ReadCall.getBlob hash) Error.text : Reading Bytes Hash Bytes).asked answer,
        call ∈ (FilesystemProvider.commitBlobs commit manifest).map ReadCall.getBlob := by
    intro hash hhash call hcall
    rw [Prog.asked_run, List.mem_singleton] at hcall
    exact hcall ▸ List.mem_map_of_mem hhash
  have hsnapshot : commit.tree.snapshot ∈ FilesystemProvider.commitBlobs commit manifest := by
    simp [FilesystemProvider.commitBlobs]
  have hsamples : commit.tree.samples ∈ FilesystemProvider.commitBlobs commit manifest := by
    simp [FilesystemProvider.commitBlobs]
  refine Prog.forall_asked_bind (hblob _ hsnapshot) fun _ _ => ?_
  refine Prog.forall_asked_bind (hread _) fun snapshot _ => ?_
  split
  · exact hread _
  refine Prog.forall_asked_bind (hblob _ hsamples) fun found hfound => ?_
  obtain rfl : found = manifestBytes :=
    Except.ok.inj ((Prog.eval_run_ok_iff.mp hfound).symm.trans hbytes)
  refine Prog.forall_asked_bind (hread _) fun decoded hdecoded => ?_
  rw [Prog.eval_ofExcept] at hdecoded
  obtain rfl : decoded = manifest :=
    Except.ok.inj ((wrapped_ok_iff.mp hdecoded).symm.trans hmanifest)
  refine Prog.forall_asked_bind (hread _) fun _ _ => ?_
  refine Prog.forall_asked_bind (hread _) fun _ _ => ?_
  refine Prog.forall_asked_bind (fun call hcall => ?_) fun _ _ => ?_
  · obtain ⟨hash, hhash, rfl⟩ := List.mem_map.mp (asked_restoreEntries call hcall)
    exact List.mem_map_of_mem (by simp [FilesystemProvider.commitBlobs, hhash])
  refine Prog.forall_asked_bind (hread _) fun _ _ => ?_
  refine Prog.forall_asked_bind (hread _) fun _ _ => ?_
  refine Prog.forall_asked_bind (hread _) fun _ _ => ?_
  refine Prog.forall_asked_bind (hread _) fun _ _ => ?_
  exact fun call hcall => absurd hcall List.not_mem_nil

section Copy
variable (hcopy : CopyOf F (kernelReaders F C problems info) answer commit bytes manifest)
variable (h : document.Parsed C) (hbytes : blob ((setWrapper Hash document).toValue F) = .ok bytes)
include hcopy h hbytes

/-- The steps of a restore from a whole copy of a set. -/
theorem copy_restore_ok_iff (hJ : F.ReadsBack limit) (hB : F.ReadsBlobs blob limit)
    (hC : C.toCharClasses.HasLetters) :
    (restoreBundle F C blob host commit destination place liveSetName).eval answer =
        .ok (t, report) ↔
      ∃ t₁ report₁ stored packed t₂, Fresh host place ∧
        (restoreEntries F host manifest.entries (.folder []) (.start destination liveSetName)).eval
          answer = .ok (t₁, report₁) ∧
        (blob ((setWrapper Hash (repointedSet document (manifestPlan manifest) destination)).toValue F) =
          .ok stored ∧ (ProjectSnapshot.mk .abletonLiveSet stored []).restoreBytes F C = .ok packed) ∧
        create host (newFile packed) [liveSetName.name] t₁ = .ok t₂ ∧
          create host newFolder [projectInfoDir] t₂ = .ok t ∧ report = { report₁ with
            rewrite := (rewriteFileRefs document.root (manifestPlan manifest) destination).2 } := by
  obtain ⟨manifestBytes, hserves, hmanifest⟩ := hcopy.samples
  obtain ⟨_, _, htext, -, -⟩ := hcopy.canonical
  obtain ⟨_, hsnapshot, -⟩ := map_ok_iff.mp htext
  obtain ⟨v, hv, -⟩ := bind_ok_iff.mp hsnapshot
  obtain ⟨text, hread, hportable⟩ := fromCanonicalBytes_setWrapper hJ hB h hbytes
    (parseJson_ok_iff.mp hv)
  rw [restoreBundle_ok_iff]
  constructor
  · rintro ⟨snapshotBytes, snapshot, manifestBytes', manifest', t₀, t₁, report₁, rewritten, rewrite,
      packed, t₂, ⟨hbytes', hread', -⟩, ⟨hserves', hmanifest'⟩, hdestination, hentries, ⟨hrepointed,
      hpacked⟩, ht₂, ht, rfl⟩
    obtain rfl := Except.ok.inj (hcopy.snapshot.1.symm.trans hbytes')
    obtain rfl := Except.ok.inj (hread.symm.trans hread')
    obtain rfl := Except.ok.inj (hserves.1.symm.trans hserves')
    obtain rfl := Except.ok.inj (hmanifest.symm.trans hmanifest')
    obtain ⟨hfresh, rfl⟩ := fresh_iff.mp hdestination
    obtain ⟨stored, hstored, heq⟩ := (repointed_ok_iff hC h hportable).mp hrepointed
    obtain ⟨rfl, rfl⟩ := Prod.mk.inj heq
    exact ⟨t₁, report₁, stored, packed, t₂, hfresh, hentries, ⟨hstored, hpacked⟩, ht₂, ht, rfl⟩
  · rintro ⟨t₁, report₁, stored, packed, t₂, hfresh, hentries, ⟨hstored, hpacked⟩, ht₂, ht, rfl⟩
    exact ⟨bytes, _, manifestBytes, manifest, .folder [], t₁, report₁, _, _, packed, t₂,
      ⟨hcopy.snapshot.1, hread, rfl⟩, ⟨hserves.1, hmanifest⟩, fresh_iff.mpr ⟨hfresh, rfl⟩, hentries,
      ⟨(repointed_ok_iff hC h hportable).mpr ⟨stored, hstored, rfl⟩, hpacked⟩, ht₂, ht, rfl⟩

/-- It ends well exactly when the files fit into the folder and the set can be written. -/
theorem copy_restores_iff (hJ : F.ReadsBack limit) (hB : F.ReadsBlobs blob limit)
    (hR : ReadsXml F C R) (hC : C.toCharClasses.HasLetters) :
    (∃ result, (restoreBundle F C blob host commit destination place liveSetName).eval answer =
        .ok result) ↔
      Fresh host place ∧ Fits host (manifest.entries.filterMap safePath ++ [[liveSetName.name]]) ∧
        Storable F blob limit (repointedSet document (manifestPlan manifest) destination) := by
  have hset := parsed_rewriteFileRefs hC h (manifestPlan manifest) destination
  have hne : ∀ f ∈ (madeFiles answer manifest.entries).reverse ++ [], f.1 ≠ [] := by
    intro f hf
    rw [List.append_nil, List.mem_reverse] at hf
    obtain ⟨entry, -, hfile⟩ := List.mem_filterMap.mp hf
    exact madeFile_ne_nil hfile
  rw [← (GivesAll.made hcopy.entries (.start destination liveSetName)).1, fits_iff]
  constructor
  · rintro ⟨⟨t, report⟩, hresult⟩
    obtain ⟨t₁, report₁, stored, packed, t₂, hfresh, hentries, ⟨hstored, hpacked⟩, ht₂, ht, -⟩ :=
      (copy_restore_ok_iff hcopy h hbytes hJ hB hC).mp hresult
    obtain ⟨hlaid, -⟩ := restoreEntries_spec laid_empty hentries
    have hfinish := (exists_finish_iff hlaid hne).mp ⟨t₂, t, ht₂, ht⟩
    rw [List.append_nil, List.map_reverse] at hfinish
    exact ⟨hfresh, ⟨(restoreEntries_ok_iff laid_empty).mp ⟨_, hentries⟩, by simpa using hfinish⟩,
      ⟨stored, hstored⟩, (restoreBytes_stored_iff hB hR hset hstored).mp ⟨packed, hpacked⟩⟩
  · rintro ⟨hfresh, ⟨hcreatable, hfinish⟩, ⟨stored, hstored⟩, hdepth⟩
    obtain ⟨⟨t₁, report₁⟩, hentries⟩ := (restoreEntries_ok_iff laid_empty).mpr hcreatable
    obtain ⟨packed, hpacked⟩ := (restoreBytes_stored_iff hB hR hset hstored).mpr hdepth
    obtain ⟨hlaid, -⟩ := restoreEntries_spec laid_empty hentries
    obtain ⟨t₂, t, ht₂, ht⟩ := (exists_finish_iff hlaid hne).mpr (by
      rw [List.append_nil, List.map_reverse]
      simpa using hfinish)
    exact ⟨(t, _), (copy_restore_ok_iff hcopy h hbytes hJ hB hC).mpr
      ⟨t₁, report₁, stored, packed, t₂, hfresh, hentries, ⟨hstored, hpacked⟩, ht₂, ht, rfl⟩⟩

/-- What it leaves then. -/
theorem copy_restored (hF : F.Lawful) (hJ : F.ReadsBack limit) (hB : F.ReadsBlobs blob limit)
    (hR : ReadsXml F C R) (hC : C.toCharClasses.HasLetters)
    (hresult : (restoreBundle F C blob host commit destination place liveSetName).eval answer =
      .ok (t, report)) :
    RestoredBundle F R document manifest destination liveSetName t report := by
  obtain ⟨t₁, report₁, stored, packed, t₂, -, hentries, ⟨hstored, hpacked⟩, ht₂, ht, rfl⟩ :=
    (copy_restore_ok_iff hcopy h hbytes hJ hB hC).mp hresult
  obtain ⟨hlaid, rfl⟩ := restoreEntries_spec laid_empty hentries
  have hset := parsed_rewriteFileRefs hC h (manifestPlan manifest) destination
  have hgives : GivesAll F answer manifest.entries := hcopy.entries
  rw [(hgives.made (.start destination liveSetName)).2]
  exact hgives.restoredBundle hF (restoreBytes_opens hB hR hset hstored hpacked)
    ((laid_created hlaid ht₂).newFolder (create_ok_iff.mp ht).1)

end Copy

end Folder

/-! From a folder in use. -/

section Published
variable {Client Bytes Hash : Type} [DecidableEq Client] [DecidableEq Hash]
variable {F : Formats Bytes Hash} {C : Codecs Bytes Hash} {S : SourceCodecs Bytes}
variable {blob : Value → Except String Bytes} {limit : Nat} {limits : Limits Client Bytes Hash}
variable {problems : Value → List AuruPm.IntegrityProblem} {info : Value → Option Bytes}
variable {source : Bytes} {loaded : ProjectSnapshot Bytes}

end Published

/-! A set with a gathered loop. -/

def anyHost : Host := ⟨fun _ => true, fun _ => "No space left on device (os error 28)"⟩

def songName : FileName :=
  ⟨Restore.safeProjectFileName "Song" .abletonLiveSet, Restore.safeProjectFileName_ordinary _ _⟩

def breakSource : Term := Term.ofList Term.ofEvent (.decl :: (setWith flatRef).events)

def breakLoaded : ProjectSnapshot Term :=
  ⟨.abletonLiveSet, .value ((setWrapper Term ⟨setWith flatRef⟩).toValue symbolicTexts), []⟩

theorem breakLoaded_load :
    ProjectSnapshot.fromSourceBytes symbolicTexts takeCodecs takeSources takeBlob .abletonLiveSet
      breakSource = .ok breakLoaded := by
  have h : ((ProjectSnapshot.fromSourceBytes symbolicTexts takeCodecs takeSources takeBlob
      .abletonLiveSet breakSource).toOption.map fun s =>
        (s.format, s.canonicalBytes, s.detachedResources)) =
          some (breakLoaded.format, breakLoaded.canonicalBytes, breakLoaded.detachedResources) := by
    decide +kernel
  obtain ⟨⟨format, bytes, detached⟩, hsnapshot, heq⟩ := Option.map_eq_some_iff.mp h
  simp only [Prod.mk.injEq] at heq
  obtain ⟨rfl, rfl, rfl⟩ := heq
  exact ok_of_toOption hsnapshot

def breakPush : PushRequest Nat Term Term :=
  { pushOf 0 .null with
    snapshot := breakLoaded.canonicalBytes
    planAssets := fun _ =>
      ⟨[⟨"Samples/Imported/break.wav", some (.text "break"), .sample, some "../../loops/break.wav"⟩],
        []⟩ }

/-- The folder after the first push of the set. -/
def breakShared : Shared Nat Term Term :=
  Shared.start.pushAlone symbolicTexts takeReaders 1 0 breakPush

theorem breakShared_run : Run symbolicTexts takeReaders anything breakShared := by
  have hmay : ∀ (s : Shared Nat Term Term) c, anything.Allow s c := fun _ c => by
    cases c <;> trivial
  exact (RunOf.start.push hmay 1 _).run

theorem breakShared_unpruned : breakShared.provider.floor = .missing := by decide +kernel

theorem takeCodecs_letters : takeCodecs.toCharClasses.HasLetters :=
  hasLetters_ascii

end Ableton

end AuruPm
