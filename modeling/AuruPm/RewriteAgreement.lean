import AuruPm.Lib.FirstOf
import AuruPm.MissedAssets
import AuruPm.Rewrite

/-!
# Gathering and rewriting

What rewriting makes of each reference of a set, beside what planning decided about it. The
rewriter reads only the layout of Live 11, goes by the recorded path type and by the texts of the
paths, where the planner reads older layouts and goes by the class and by the file.
-/

namespace AuruPm

set_option autoImplicit false

open SortedAssoc FirstOf

namespace Ableton

/-! The origins of a plan. -/

def gatherable (policy : BundlePolicy) (refs : List AssetRef) : List AssetRef :=
  refs.filter fun r => shouldGather r.refClass policy

theorem outsideFrom_eq_firsts (policy : BundlePolicy) (seen : List String) (refs : List AssetRef) :
    outsideFrom policy seen refs = firsts AssetRef.dedupKey seen (gatherable policy refs) := by
  induction refs generalizing seen with
  | nil => rfl
  | cons r refs ih =>
    rw [outsideFrom, gatherable, List.filter_cons]
    split
    · rename_i hkept
      rw [hkept]
      exact ih seen
    · rename_i hgather
      have hgather : shouldGather r.refClass policy = true := by simpa using hgather
      rw [if_pos hgather, firsts]
      split
      · exact ih seen
      · exact congrArg _ (ih _)

theorem outside_nodup (policy : BundlePolicy) (refs : List AssetRef) :
    ((outside policy refs).map AssetRef.dedupKey).Nodup := by
  rw [outside, outsideFrom_eq_firsts]
  exact ((List.perm_insertionSort _ _).map _).nodup_iff.mpr (nodup_firsts [] _)

/-- No two assets have one origin, and none has an origin that is still to come. -/
structure Gathering.OneEach (g : Gathering) (waiting : List String) : Prop where
  unique : ∀ e ∈ g.assets, ∀ e' ∈ g.assets, ∀ key,
    e.2.origin = some key → e'.2.origin = some key → e = e'
  ahead : ∀ e ∈ g.assets, ∀ key ∈ waiting, e.2.origin ≠ some key

section Plan
variable {Bytes : Type} {m : Machine Bytes} {bundle : AbletonBundle} {policy : BundlePolicy}

theorem gather_oneEach {enumerated : List HostPath} {g g' : Gathering} {r : AssetRef}
    {waiting : List String} (h : gather m bundle policy enumerated g r = .ok g')
    (hg : g.OneEach (r.dedupKey :: waiting)) (hnew : r.dedupKey ∉ waiting) :
    g'.OneEach waiting := by
  have hkept : g.OneEach waiting :=
    ⟨hg.unique, fun e he key hkey => hg.ahead e he key (List.mem_cons_of_mem _ hkey)⟩
  simp only [gather, bind_ok_iff] at h
  obtain ⟨found, -, h⟩ := h
  cases found with
  | none =>
    cases h
    exact ⟨hkept.unique, hkept.ahead⟩
  | some source =>
    simp only at h
    split at h
    · split at h
      · cases h
        exact hkept
      · cases h
        exact ⟨hkept.unique, hkept.ahead⟩
    · split at h
      · cases h
        exact hkept
      · cases h
        have hother : ∀ e ∈ g.assets, e.2.origin ≠ some r.dedupKey := fun e he =>
          hg.ahead e he _ List.mem_cons_self
        refine ⟨fun e he e' he' key hkey hkey' => ?_, fun e he key hkey hsome => ?_⟩
        · rcases mem_insert he with rfl | he <;> rcases mem_insert he' with rfl | he'
          · rfl
          · exact absurd (hkey'.trans hkey.symm) (hother e' he')
          · exact absurd (hkey.trans hkey'.symm) (hother e he)
          · exact hg.unique e he e' he' key hkey hkey'
        · rcases mem_insert he with rfl | he
          · cases hsome
            exact hnew hkey
          · exact hkept.ahead e he key hkey hsome

theorem gatherAll_oneEach {enumerated : List HostPath} {refs : List AssetRef} {g g' : Gathering}
    (h : gatherAll m bundle policy enumerated g refs = .ok g')
    (hg : g.OneEach (refs.map AssetRef.dedupKey)) (hnodup : (refs.map AssetRef.dedupKey).Nodup) :
    g'.OneEach [] := by
  induction refs generalizing g with
  | nil =>
    cases h
    exact hg
  | cons r refs ih =>
    simp only [gatherAll, bind_ok_iff] at h
    obtain ⟨next, hnext, h⟩ := h
    rw [List.map_cons, List.nodup_cons] at hnodup
    exact ih h (gather_oneEach hnext hg hnodup.1) hnodup.2

theorem fromFolder_origin {files : List BundleFile} {g : Gathering}
    (h : fromFolder m bundle policy = (files, g)) : ∀ e ∈ g.assets, e.2.origin = none := by
  intro e he
  obtain ⟨file, -, rfl⟩ := (fromFolder_files h).2.2.1 e he
  rfl

/-- A text that a set refers to files by is the origin of one file at most. -/
def AssetPlan.OriginsUnique (planned : AssetPlan) : Prop :=
  ∀ file ∈ planned.assets, ∀ other ∈ planned.assets, ∀ key,
    file.origin = some key → other.origin = some key → file = other

theorem plan_origins {root : XmlElement} {planned : AssetPlan}
    (h : plan m bundle root policy = .ok planned) : planned.OriginsUnique := by
  obtain ⟨files, g, hfolder⟩ : ∃ files g, fromFolder m bundle policy = (files, g) := ⟨_, _, rfl⟩
  simp only [plan, hfolder, bind_ok_iff] at h
  obtain ⟨g', hgather, h⟩ := h
  cases h
  have hnone := fromFolder_origin hfolder
  have hone : g'.OneEach [] := by
    refine gatherAll_oneEach hgather ⟨?_, ?_⟩ (outside_nodup policy _)
    · intro e he _ _ key hkey
      rw [hnone e he] at hkey
      cases hkey
    · intro e he key _ hkey
      rw [hnone e he] at hkey
      cases hkey
  intro file hfile other hother key hkey hkey'
  obtain ⟨e, he, rfl⟩ := List.mem_map.mp hfile
  obtain ⟨e', he', rfl⟩ := List.mem_map.mp hother
  rw [hone.unique e he e' he' key hkey hkey']

end Plan

/-- The rewriting that a plan asks for: its origins, and where their files lie. -/
def vendorPlan (planned : AssetPlan) : VendorPlan :=
  .new (planned.assets.filterMap fun file => file.origin.map fun origin =>
    (origin, file.bundlePath))

theorem mem_placements {planned : AssetPlan} {reference destination : String} :
    (reference, destination) ∈ (planned.assets.filterMap fun file => file.origin.map fun origin =>
      (origin, file.bundlePath)) ↔
    ∃ file ∈ planned.assets, file.origin = some reference ∧ file.bundlePath = destination := by
  rw [List.mem_filterMap]
  refine exists_congr fun file => and_congr_right fun _ => ?_
  rw [Option.map_eq_some_iff]
  constructor
  · intro ⟨origin, horigin, h⟩
    cases h
    exact ⟨horigin, rfl⟩
  · intro ⟨horigin, hpath⟩
    exact ⟨reference, horigin, by rw [hpath]⟩

/-- The rewriting knows every file with an origin. -/
theorem destinationFor_iff {planned : AssetPlan} (hone : planned.OriginsUnique)
    {reference destination : String} :
    (vendorPlan planned).destinationFor reference = some destination ↔
      ∃ file ∈ planned.assets, file.origin = some reference ∧ file.bundlePath = destination := by
  have hmem : ∀ {found : String}, (vendorPlan planned).destinationFor reference = some found →
      ∃ file ∈ planned.assets, file.origin = some reference ∧ file.bundlePath = found := by
    intro found hfound
    obtain ⟨placement, hplacement, heq⟩ :=
      (mem_foldl_insert (mem_of_get? hfound)).resolve_left fun h => nomatch h
    rw [← mem_placements, heq]
    exact hplacement
  refine ⟨hmem, fun ⟨file, hfile, horigin, hpath⟩ => ?_⟩
  have hkey : ((vendorPlan planned).destinationFor reference).isSome := by
    refine get?_isSome_iff.mpr (key_mem_foldl_insert (Or.inr ?_))
    exact List.mem_map_of_mem (mem_placements.mpr ⟨file, hfile, horigin, hpath⟩)
  obtain ⟨found, hfound⟩ := Option.isSome_iff_exists.mp hkey
  obtain ⟨other, hother, horigin', hpath'⟩ := hmem hfound
  rw [hfound, ← hpath', ← hpath, hone other hother file hfile reference horigin' horigin]

/-! What the rewriter reads. -/

section Reading

def flatRelative (e : XmlElement) : String := (e.childValue "RelativePath").getD ""

def flatAbsolute (e : XmlElement) : String := (e.childValue "Path").getD ""

def rawPathType (e : XmlElement) : Nat := ((e.childValue "RelativePathType").bind parseU32).getD 0

def hasLivePack (e : XmlElement) : Bool := ((e.childValue "LivePackName").filter (· ≠ "")).isSome

/-- The text that is looked up among the origins. -/
def lookedUp (e : XmlElement) : String :=
  if flatRelative e = "" then flatAbsolute e else flatRelative e

variable {e : XmlElement}

theorem lookedUp_eq_empty_iff : lookedUp e = "" ↔ flatRelative e = "" ∧ flatAbsolute e = "" := by
  unfold lookedUp
  split
  · rename_i h
    exact ⟨fun h' => ⟨h, h'⟩, fun h' => h'.2⟩
  · rename_i h
    exact ⟨fun h' => absurd h' h, fun h' => absurd h'.1 h⟩

theorem readRelativePath_of_flat (h : flatRelative e ≠ "") :
    readRelativePath e = flatRelative e := by
  unfold flatRelative at h ⊢
  cases hvalue : e.childValue "RelativePath" with
  | none =>
    rw [hvalue] at h
    exact absurd rfl h
  | some value =>
    obtain ⟨node, hnode, hattribute⟩ := Option.bind_eq_some_iff.mp hvalue
    rw [readRelativePath, hnode]
    simp only [hattribute, Option.getD_some]

theorem readAbsolutePath_of_flat (h : flatAbsolute e ≠ "") :
    readAbsolutePath e = flatAbsolute e := by
  unfold flatAbsolute at h ⊢
  cases hvalue : e.childValue "Path" with
  | none =>
    rw [hvalue] at h
    exact absurd rfl h
  | some value =>
    rw [hvalue] at h
    have hne : value ≠ "" := h
    rw [readAbsolutePath, hvalue, Option.filter_some, if_pos (decide_eq_true_iff.mpr hne)]
    rfl

theorem classify_unresolvable_iff {pathType : RelativePathType} {relative absolute : String}
    {livePack : Bool} :
    classify pathType relative absolute livePack = .unresolvable ↔
      relative = "" ∧ absolute = "" := by
  unfold classify
  split
  · rename_i h
    exact ⟨fun _ => h, fun _ => rfl⟩
  · rename_i h
    refine ⟨fun heq => ?_, fun h' => absurd h' h⟩
    cases pathType with
    | installation => cases heq
    | userLibrary => cases heq
    | projectFolder => cases heq
    | projectRelative =>
      simp only at heq
      split at heq <;> cases heq
    | missing =>
      simp only at heq
      split at heq
      · cases heq
      · split at heq <;> cases heq
    | other raw =>
      simp only at heq
      split at heq
      · cases heq
      · split at heq <;> cases heq

/-- Where the planner reads no path, neither does the rewriter. -/
theorem lookedUp_of_unresolvable (h : (readFileRef e).refClass = .unresolvable) :
    lookedUp e = "" := by
  obtain ⟨hrelative, habsolute⟩ := classify_unresolvable_iff.mp h
  refine lookedUp_eq_empty_iff.mpr ⟨?_, ?_⟩
  · apply by_contra
    intro hne
    exact hne ((readRelativePath_of_flat hne).symm.trans hrelative)
  · apply by_contra
    intro hne
    exact hne ((readAbsolutePath_of_flat hne).symm.trans habsolute)

theorem refClass_eq : (readFileRef e).refClass = classify (.fromRaw (rawPathType e))
    (readRelativePath e) (readAbsolutePath e) (hasLivePack e) := rfl

theorem refClass_of_installation (h : rawPathType e = installationPathType) :
    (readFileRef e).refClass = .unresolvable ∨ (readFileRef e).refClass = .library := by
  rw [refClass_eq, h]
  unfold classify
  split
  · exact Or.inl rfl
  · exact Or.inr rfl

theorem refClass_of_projectFolder (h : rawPathType e = projectFolderPathType) :
    (readFileRef e).refClass = .unresolvable ∨ (readFileRef e).refClass = .inFolder := by
  rw [refClass_eq, h]
  unfold classify
  split
  · exact Or.inl rfl
  · exact Or.inr rfl

end Reading

/-! What the rewriter does at one reference. -/

inductive Outcome where
  | rewritten (destination : String)
  | alreadyInFolder
  | leftToLive
  | empty
  | unresolved (reference : String)
  deriving DecidableEq

def RewriteReport.count (report : RewriteReport) : Outcome → RewriteReport
  | .rewritten _ => { report with rewritten := report.rewritten + 1 }
  | .alreadyInFolder => { report with alreadyInFolder := report.alreadyInFolder + 1 }
  | .leftToLive => { report with leftToLive := report.leftToLive + 1 }
  | .empty => { report with empty := report.empty + 1 }
  | .unresolved reference => { report with unresolved := report.unresolved ++ [reference] }

/-- Only the destination of a rewritten reference is not counted. -/
theorem RewriteReport.eq_of_count {report : RewriteReport} {outcome outcome' : Outcome}
    (h : report.count outcome = report.count outcome')
    (hkept : ∀ destination, outcome' ≠ .rewritten destination) : outcome = outcome' := by
  cases outcome' with
  | rewritten destination => exact absurd rfl (hkept destination)
  | _ => cases outcome <;> simp_all [count]

def Outcome.write (projectRoot : HostPath) (e : XmlElement) : Outcome → XmlElement
  | .rewritten destination => writeReference e destination projectRoot
  | _ => e

def outcome (plan : VendorPlan) (e : XmlElement) : Outcome :=
  if lookedUp e = "" then .empty
  else if rawPathType e = installationPathType ∨ hasLivePack e = true then .leftToLive
  else
    match plan.destinationFor (lookedUp e) with
    | some destination => .rewritten destination
    | none =>
      if rawPathType e = projectFolderPathType ∧ flatRelative e ≠ "" then .alreadyInFolder
      else .unresolved (lookedUp e)

theorem rewriteOne_eq (plan : VendorPlan) (projectRoot : HostPath) (e : XmlElement)
    (report : RewriteReport) :
    rewriteOne plan projectRoot e report =
      ((outcome plan e).write projectRoot e, report.count (outcome plan e)) := by
  unfold rewriteOne outcome
  change (if flatRelative e = "" ∧ flatAbsolute e = "" then _ else _) = _
  by_cases hempty : flatRelative e = "" ∧ flatAbsolute e = ""
  · rw [if_pos hempty, if_pos (lookedUp_eq_empty_iff.mpr hempty)]
    rfl
  · rw [if_neg hempty, if_neg fun h => hempty (lookedUp_eq_empty_iff.mp h)]
    change (if rawPathType e = installationPathType ∨ hasLivePack e = true then _ else _) = _
    split
    · rfl
    · change (match plan.destinationFor (lookedUp e) with
        | some destination => _
        | none => if rawPathType e = projectFolderPathType ∧ flatRelative e ≠ "" then _ else _) = _
      split
      · rfl
      · split <;> rfl

section Outcome
variable {plan : VendorPlan} {e : XmlElement}

theorem outcome_eq_empty (h : lookedUp e = "") : outcome plan e = .empty := if_pos h

theorem outcome_eq_leftToLive_iff : outcome plan e = .leftToLive ↔
    lookedUp e ≠ "" ∧ (rawPathType e = installationPathType ∨ hasLivePack e = true) := by
  unfold outcome
  split
  · rename_i h
    exact ⟨(fun heq => nomatch heq), fun h' => absurd h h'.1⟩
  · rename_i h
    split
    · rename_i hlive
      exact ⟨fun _ => ⟨h, hlive⟩, fun _ => rfl⟩
    · rename_i hlive
      refine ⟨fun heq => ?_, fun h' => absurd h'.2 hlive⟩
      split at heq
      · cases heq
      · split at heq <;> cases heq

/-- What is looked up among the origins, and what follows when it is not among them. -/
theorem outcome_of_lookup (h : lookedUp e ≠ "") (htype : rawPathType e ≠ installationPathType)
    (hpack : hasLivePack e = false) :
    outcome plan e = match plan.destinationFor (lookedUp e) with
      | some destination => .rewritten destination
      | none =>
        if rawPathType e = projectFolderPathType ∧ flatRelative e ≠ "" then .alreadyInFolder
        else .unresolved (lookedUp e) := by
  unfold outcome
  rw [if_neg h, if_neg]
  intro hlive
  rcases hlive with hlive | hlive
  · exact htype hlive
  · rw [hpack] at hlive
    cases hlive

/-- A reference that is looked up names a path and is no content of Live. -/
theorem lookup_of_outcome {found : Outcome} (hfound : outcome plan e = found)
    (hempty : found ≠ .empty) (hlive : found ≠ .leftToLive) :
    lookedUp e ≠ "" ∧ rawPathType e ≠ installationPathType ∧ hasLivePack e = false := by
  subst hfound
  have hne : lookedUp e ≠ "" := fun h => hempty (outcome_eq_empty h)
  refine ⟨hne, fun h => ?_, Bool.eq_false_iff.mpr fun h => ?_⟩
  · exact hlive (outcome_eq_leftToLive_iff.mpr ⟨hne, Or.inl h⟩)
  · exact hlive (outcome_eq_leftToLive_iff.mpr ⟨hne, Or.inr h⟩)

theorem outcome_eq_rewritten_iff {destination : String} :
    outcome plan e = .rewritten destination ↔ lookedUp e ≠ "" ∧
      rawPathType e ≠ installationPathType ∧ hasLivePack e = false ∧
      plan.destinationFor (lookedUp e) = some destination := by
  constructor
  · intro h
    obtain ⟨hne, htype, hpack⟩ := lookup_of_outcome h nofun nofun
    refine ⟨hne, htype, hpack, ?_⟩
    rw [outcome_of_lookup hne htype hpack] at h
    split at h
    · rename_i found hfound
      cases h
      exact hfound
    · split at h <;> cases h
  · intro ⟨hne, htype, hpack, hfound⟩
    rw [outcome_of_lookup hne htype hpack, hfound]

theorem outcome_eq_alreadyInFolder_iff : outcome plan e = .alreadyInFolder ↔
    hasLivePack e = false ∧ rawPathType e = projectFolderPathType ∧ flatRelative e ≠ "" ∧
      plan.destinationFor (lookedUp e) = none := by
  constructor
  · intro h
    obtain ⟨hne, htype, hpack⟩ := lookup_of_outcome h nofun nofun
    rw [outcome_of_lookup hne htype hpack] at h
    split at h
    · cases h
    · rename_i hnone
      split at h
      · rename_i hfolder
        exact ⟨hpack, hfolder.1, hfolder.2, hnone⟩
      · cases h
  · intro ⟨hpack, hfolder, hrelative, hnone⟩
    have hne : lookedUp e ≠ "" := fun h => hrelative (lookedUp_eq_empty_iff.mp h).1
    have htype : rawPathType e ≠ installationPathType := by
      rw [hfolder]
      decide
    rw [outcome_of_lookup hne htype hpack, hnone]
    exact if_pos ⟨hfolder, hrelative⟩

theorem outcome_unresolved_iff (hfolder : rawPathType e ≠ projectFolderPathType) :
    (∃ reference, outcome plan e = .unresolved reference) ↔ lookedUp e ≠ "" ∧
      rawPathType e ≠ installationPathType ∧ hasLivePack e = false ∧
      plan.destinationFor (lookedUp e) = none := by
  constructor
  · intro ⟨reference, h⟩
    obtain ⟨hne, htype, hpack⟩ := lookup_of_outcome h nofun nofun
    refine ⟨hne, htype, hpack, ?_⟩
    rw [outcome_of_lookup hne htype hpack] at h
    split at h
    · cases h
    · rename_i hnone
      exact hnone
  · intro ⟨hne, htype, hpack, hnone⟩
    refine ⟨lookedUp e, ?_⟩
    rw [outcome_of_lookup hne htype hpack, hnone]
    exact if_neg fun h => hfolder h.1

end Outcome

/-! Where a written reference points. -/

/-- A reference to a path in the project folder. -/
structure PointsAt (projectRoot : HostPath) (path : String) (e : XmlElement) : Prop where
  pathType : e.childValue "RelativePathType" = some "3"
  relative : e.childValue "RelativePath" = some path
  absolute : e.childValue "Path" = some (absolutePathFor projectRoot path)

theorem writeReference_pointsAt (projectRoot : HostPath) (path : String) (e : XmlElement) :
    PointsAt projectRoot path (writeReference e path projectRoot) where
  pathType := by
    rw [writeReference, XmlElement.childValue_setChildValue_of_ne (by decide),
      XmlElement.childValue_setChildValue_of_ne (by decide), XmlElement.childValue_setChildValue]
    rfl
  relative := by
    rw [writeReference, XmlElement.childValue_setChildValue_of_ne (by decide),
      XmlElement.childValue_setChildValue]
  absolute := by rw [writeReference, XmlElement.childValue_setChildValue]

/-- The rest of a reference, such as its size and its checksum, stays. -/
theorem child_writeReference {name : String}
    (h : name ∉ ["RelativePathType", "RelativePath", "Path"]) (projectRoot : HostPath)
    (path : String) (e : XmlElement) :
    (writeReference e path projectRoot).child name = e.child name := by
  simp only [List.mem_cons, not_or] at h
  rw [writeReference, XmlElement.child_setChildValue_of_ne h.2.2.1,
    XmlElement.child_setChildValue_of_ne h.2.1, XmlElement.child_setChildValue_of_ne h.1]

theorem PointsAt.rawPathType {projectRoot : HostPath} {path : String} {e : XmlElement}
    (h : PointsAt projectRoot path e) : Ableton.rawPathType e = projectFolderPathType := by
  rw [Ableton.rawPathType, h.pathType]
  decide +kernel

theorem absolutePathFor_ne (projectRoot : HostPath) {path : String} (h : path ≠ "") :
    absolutePathFor projectRoot path ≠ "" := by
  intro heq
  refine h (String.toList_eq_nil_iff.mp ?_)
  have hlist := congrArg String.toList heq
  rw [absolutePathFor, String.toList_append] at hlist
  exact (List.append_eq_nil_iff.mp hlist).2

/-- A written reference is read back as a file of the folder, at this path. -/
theorem PointsAt.read {projectRoot : HostPath} {path : String} {e : XmlElement}
    (h : PointsAt projectRoot path e) (hne : path ≠ "") :
    readFileRef e = ⟨path, absolutePathFor projectRoot path, .projectFolder, .inFolder⟩ := by
  have hflat : flatRelative e = path := by rw [flatRelative, h.relative, Option.getD_some]
  have hflat' : flatAbsolute e = absolutePathFor projectRoot path := by
    rw [flatAbsolute, h.absolute, Option.getD_some]
  have hrelative : readRelativePath e = path := by
    rw [← hflat]
    exact readRelativePath_of_flat (by rw [hflat]; exact hne)
  have habsolute : readAbsolutePath e = absolutePathFor projectRoot path := by
    rw [← hflat']
    exact readAbsolutePath_of_flat (by rw [hflat']; exact absolutePathFor_ne projectRoot hne)
  have htype : RelativePathType.fromRaw (Ableton.rawPathType e) = .projectFolder := by
    rw [h.rawPathType]
    rfl
  have hread : readFileRef e = ⟨readRelativePath e, readAbsolutePath e, .fromRaw
      (Ableton.rawPathType e), classify (.fromRaw (Ableton.rawPathType e)) (readRelativePath e)
        (readAbsolutePath e) (hasLivePack e)⟩ := rfl
  rw [hread, hrelative, habsolute, htype, classify, if_neg fun h => hne h.1]

/-! What planning decides. -/

inductive Decision where
  | gathered (source : HostPath)
  | inFolder
  | liveContent
  | empty
  | unresolved
  deriving DecidableEq

/-- What a plan makes of a file: gathered from elsewhere, one of the folder's, or neither. -/
def fate (planned : AssetPlan) : Option HostPath → Decision
  | none => .unresolved
  | some source =>
    if ∃ file ∈ planned.assets, file.origin.isSome = true ∧ file.source = source then
      .gathered source
    else if ∃ file ∈ planned.assets, file.source = source then .inFolder
    else .unresolved

/-- What a plan makes of a reference of this class that leads to this file. -/
def decision (planned : AssetPlan) (refClass : RefClass) (file : Option HostPath) : Decision :=
  match refClass with
  | .unresolvable => .empty
  | .library => .liveContent
  | .inFolder => .inFolder
  | .external => fate planned file
  | .userLibrary => fate planned file

/-! Agreement. -/

/-- A reference as the walk finds it and leaves it, and the report before and after. -/
structure Visit where
  fileRef : XmlElement
  rewritten : XmlElement
  earlier : RewriteReport
  later : RewriteReport

def visits (plan : VendorPlan) (projectRoot : HostPath) :
    RewriteReport → List XmlElement → List Visit
  | _, [] => []
  | report, e :: rest =>
    let next := rewriteOne plan projectRoot e report
    ⟨e, next.1, report, next.2⟩ :: visits plan projectRoot next.2 rest

/-- A gathered reference points at its file, and every other one is unchanged and counted. -/
def Visit.Agrees (planned : AssetPlan) (projectRoot : HostPath) (v : Visit) : Decision → Prop
  | .gathered source => ∃ file ∈ planned.assets, file.origin.isSome = true ∧
      file.source = source ∧ PointsAt projectRoot file.bundlePath v.rewritten
  | .inFolder => v.rewritten = v.fileRef ∧ v.later = v.earlier.count .alreadyInFolder
  | .liveContent => v.rewritten = v.fileRef ∧ v.later = v.earlier.count .leftToLive
  | .empty => v.rewritten = v.fileRef ∧ v.later = v.earlier.count .empty
  | .unresolved => v.rewritten = v.fileRef ∧
      ∃ reference, v.later = v.earlier.count (.unresolved reference)

/-- The reference is recorded in the way that the rewriter goes by: as content of Live or of the
folder by its type and not only by its path, and an outside one under a text that is the origin of
its own file, or of none where its file is not stored. -/
def Addressed (planned : AssetPlan) (file : Option HostPath) (e : XmlElement) : Prop :=
  match (readFileRef e).refClass with
  | .unresolvable => True
  | .library =>
    lookedUp e ≠ "" ∧ (rawPathType e = installationPathType ∨ hasLivePack e = true)
  | .inFolder =>
    hasLivePack e = false ∧ rawPathType e = projectFolderPathType ∧ flatRelative e ≠ "" ∧
      ∀ stored ∈ planned.assets, stored.origin ≠ some (lookedUp e)
  | _ =>
    lookedUp e ≠ "" ∧ hasLivePack e = false ∧
      match fate planned file with
      | .gathered source =>
        ∃ stored ∈ planned.assets, stored.origin = some (lookedUp e) ∧ stored.source = source
      | .unresolved => ∀ stored ∈ planned.assets, stored.origin ≠ some (lookedUp e)
      | _ => False

instance (planned : AssetPlan) (file : Option HostPath) (e : XmlElement) :
    Decidable (Addressed planned file e) := by
  unfold Addressed
  repeat' split
  all_goals infer_instance

theorem kept_iff (projectRoot : HostPath) (e : XmlElement) (report : RewriteReport)
    {found expected : Outcome} (hkept : ∀ destination, expected ≠ .rewritten destination) :
    found.write projectRoot e = e ∧ report.count found = report.count expected ↔
      found = expected := by
  refine ⟨fun h => report.eq_of_count h.2 hkept, fun h => ?_⟩
  subst h
  refine ⟨?_, rfl⟩
  cases found with
  | rewritten destination => exact absurd rfl (hkept destination)
  | _ => rfl

/-- A reference that is not rewritten points where it did. -/
theorem write_pointsAt_iff {projectRoot : HostPath} {e : XmlElement} {found : Outcome}
    {path : String} (htype : rawPathType e ≠ projectFolderPathType) :
    PointsAt projectRoot path (found.write projectRoot e) ↔ found = .rewritten path := by
  constructor
  · intro h
    cases found with
    | rewritten destination =>
      have hwritten := writeReference_pointsAt projectRoot destination e
      rw [Option.some.inj (hwritten.relative.symm.trans h.relative)]
    | _ => exact absurd h.rawPathType htype
  · intro h
    subst h
    exact writeReference_pointsAt projectRoot path e

section Agreement
variable {planned : AssetPlan} {projectRoot : HostPath} {e : XmlElement}

theorem destinationFor_eq_none_iff (hone : planned.OriginsUnique) {reference : String} :
    (vendorPlan planned).destinationFor reference = none ↔
      ∀ stored ∈ planned.assets, stored.origin ≠ some reference := by
  rw [Option.eq_none_iff_forall_ne_some]
  constructor
  · intro h stored hstored horigin
    exact h stored.bundlePath ((destinationFor_iff hone).mpr ⟨stored, hstored, horigin, rfl⟩)
  · intro h destination hfound
    obtain ⟨stored, hstored, horigin, -⟩ := (destinationFor_iff hone).mp hfound
    exact h stored hstored horigin

/-- A reference that planning looks for outside. -/
theorem outside_agrees_iff (hone : planned.OriginsUnique)
    (hpaths : (planned.assets.map PlannedFile.bundlePath).Nodup)
    (htype : rawPathType e ≠ installationPathType) (hfolder : rawPathType e ≠ projectFolderPathType)
    (file : Option HostPath) (report : RewriteReport) :
    Visit.Agrees planned projectRoot
        ⟨e, (outcome (vendorPlan planned) e).write projectRoot e, report,
          report.count (outcome (vendorPlan planned) e)⟩ (fate planned file) ↔
      lookedUp e ≠ "" ∧ hasLivePack e = false ∧
        match fate planned file with
        | .gathered source =>
          ∃ stored ∈ planned.assets, stored.origin = some (lookedUp e) ∧ stored.source = source
        | .unresolved => ∀ stored ∈ planned.assets, stored.origin ≠ some (lookedUp e)
        | _ => False := by
  have hfates : fate planned file = .inFolder ∨ fate planned file = .unresolved ∨
      ∃ source, fate planned file = .gathered source := by
    unfold fate
    split
    · exact Or.inr (Or.inl rfl)
    · split
      · exact Or.inr (Or.inr ⟨_, rfl⟩)
      · split
        · exact Or.inl rfl
        · exact Or.inr (Or.inl rfl)
  rcases hfates with hfate | hfate | ⟨source, hfate⟩
  · rw [hfate]
    simp only [Visit.Agrees, and_false, iff_false]
    intro h
    exact hfolder (outcome_eq_alreadyInFolder_iff.mp
      ((kept_iff projectRoot e report (by intro _ h; cases h)).mp h)).2.1
  · rw [hfate]
    have hcounted : (∃ reference, outcome (vendorPlan planned) e = .unresolved reference) ↔
        lookedUp e ≠ "" ∧ hasLivePack e = false ∧
          ∀ stored ∈ planned.assets, stored.origin ≠ some (lookedUp e) := by
      rw [outcome_unresolved_iff hfolder, destinationFor_eq_none_iff hone]
      exact and_congr_right fun _ => and_iff_right htype
    rw [← hcounted]
    constructor
    · intro ⟨hwrite, reference, hcount⟩
      exact ⟨reference, (kept_iff projectRoot e report (by intro _ h; cases h)).mp ⟨hwrite, hcount⟩⟩
    · intro ⟨reference, hfound⟩
      obtain ⟨hwrite, hcount⟩ := (kept_iff projectRoot e report (by intro _ h; cases h)).mpr hfound
      exact ⟨hwrite, reference, hcount⟩
  · rw [hfate]
    simp only [Visit.Agrees, write_pointsAt_iff hfolder, outcome_eq_rewritten_iff,
      destinationFor_iff hone]
    constructor
    · intro ⟨gathered, hgathered, _, hsource, hne, _, hpack, stored, hstored, horigin, hpath⟩
      have heq : stored = gathered := List.inj_on_of_nodup_map hpaths hstored hgathered hpath
      exact ⟨hne, hpack, stored, hstored, horigin, heq ▸ hsource⟩
    · intro ⟨hne, hpack, stored, hstored, horigin, hsource⟩
      refine ⟨stored, hstored, ?_, hsource, hne, htype, hpack, stored, hstored, horigin, rfl⟩
      rw [horigin]
      rfl

variable (projectRoot e) in
theorem visit_agrees_iff (hone : planned.OriginsUnique)
    (hpaths : (planned.assets.map PlannedFile.bundlePath).Nodup)
    (file : Option HostPath) (report : RewriteReport) :
    Visit.Agrees planned projectRoot
        ⟨e, (rewriteOne (vendorPlan planned) projectRoot e report).1, report,
          (rewriteOne (vendorPlan planned) projectRoot e report).2⟩
        (decision planned (readFileRef e).refClass file) ↔
      Addressed planned file e := by
  rw [rewriteOne_eq]
  unfold Addressed
  have houtside : ∀ refClass : RefClass, (readFileRef e).refClass = refClass →
      refClass ≠ .unresolvable → refClass ≠ .library → refClass ≠ .inFolder →
      rawPathType e ≠ installationPathType ∧ rawPathType e ≠ projectFolderPathType := by
    intro refClass hclass hempty hlive hfolder
    refine ⟨fun htype => ?_, fun htype => ?_⟩
    · rcases refClass_of_installation htype with h | h
      · exact hempty (hclass.symm.trans h)
      · exact hlive (hclass.symm.trans h)
    · rcases refClass_of_projectFolder htype with h | h
      · exact hempty (hclass.symm.trans h)
      · exact hfolder (hclass.symm.trans h)
  cases hclass : (readFileRef e).refClass with
  | unresolvable =>
    refine iff_true_intro ((kept_iff projectRoot e report (by intro _ h; cases h)).mpr ?_)
    exact outcome_eq_empty (lookedUp_of_unresolvable hclass)
  | library =>
    exact (kept_iff projectRoot e report (by intro _ h; cases h)).trans outcome_eq_leftToLive_iff
  | inFolder =>
    refine (kept_iff projectRoot e report (by intro _ h; cases h)).trans ?_
    rw [outcome_eq_alreadyInFolder_iff, destinationFor_eq_none_iff hone]
  | external =>
    obtain ⟨htype, hfolder⟩ := houtside _ hclass (by decide) (by decide) (by decide)
    exact outside_agrees_iff hone hpaths htype hfolder file report
  | userLibrary =>
    obtain ⟨htype, hfolder⟩ := houtside _ hclass (by decide) (by decide) (by decide)
    exact outside_agrees_iff hone hpaths htype hfolder file report

end Agreement

/-! Whole runs. -/

section Run
variable (plan : VendorPlan) (projectRoot : HostPath)

theorem visits_fileRef (report : RewriteReport) (es : List XmlElement) :
    (visits plan projectRoot report es).map Visit.fileRef = es := by
  induction es generalizing report with
  | nil => rfl
  | cons e es ih => rw [visits, List.map_cons, ih]

theorem visitAll_eq_visits (report : RewriteReport) (es : List XmlElement) :
    visitAll (rewriteOne plan projectRoot) es report =
      ((visits plan projectRoot report es).map Visit.rewritten,
        ((visits plan projectRoot report es).map Visit.later).getLastD report) := by
  induction es generalizing report with
  | nil => rfl
  | cons e es ih =>
    rw [visitAll, visits, ih, List.map_cons, List.map_cons, List.getLastD_cons]

variable {plan projectRoot}

theorem visit_step {report : RewriteReport} {es : List XmlElement} {v : Visit}
    (h : v ∈ visits plan projectRoot report es) :
    v = ⟨v.fileRef, (rewriteOne plan projectRoot v.fileRef v.earlier).1, v.earlier,
      (rewriteOne plan projectRoot v.fileRef v.earlier).2⟩ := by
  induction es generalizing report with
  | nil => cases h
  | cons e es ih =>
    rcases List.mem_cons.mp h with rfl | h
    · rfl
    · exact ih h

variable (plan projectRoot) in
theorem tag_rewriteOne (e : XmlElement) (report : RewriteReport) :
    (rewriteOne plan projectRoot e report).1.tag = e.tag := by
  rw [rewriteOne_eq]
  cases outcome plan e with
  | rewritten destination =>
    simp only [Outcome.write, writeReference, XmlElement.tag_setChildValue]
  | _ => rfl

end Run

section Agreement
variable {Bytes : Type} (m : Machine Bytes) (bundle : AbletonBundle) (policy : BundlePolicy)

/-- The rewriting of a set visits the references that were planned, changes nothing around them,
and at each one does what the plan decided. -/
structure Agrees (planned : AssetPlan) (root : XmlElement) (projectRoot : HostPath) : Prop where
  found : collect root =
    (visits (vendorPlan planned) projectRoot {} (fileRefs root)).map fun v => readFileRef v.fileRef
  around : frame (rewriteFileRefs root (vendorPlan planned) projectRoot).1 = frame root
  refs : fileRefs (rewriteFileRefs root (vendorPlan planned) projectRoot).1 =
    (visits (vendorPlan planned) projectRoot {} (fileRefs root)).map Visit.rewritten
  counts : (rewriteFileRefs root (vendorPlan planned) projectRoot).2 =
    ((visits (vendorPlan planned) projectRoot {} (fileRefs root)).map Visit.later).getLastD {}
  each : ∀ v ∈ visits (vendorPlan planned) projectRoot {} (fileRefs root),
    v.Agrees planned projectRoot (decision planned (readFileRef v.fileRef).refClass
      (fileOf m bundle policy (readFileRef v.fileRef)))

variable {m bundle policy}

theorem each_agrees_iff {root : XmlElement} {planned : AssetPlan}
    (h : plan m bundle root policy = .ok planned) (projectRoot : HostPath) :
    (∀ v ∈ visits (vendorPlan planned) projectRoot {} (fileRefs root),
      v.Agrees planned projectRoot (decision planned (readFileRef v.fileRef).refClass
        (fileOf m bundle policy (readFileRef v.fileRef)))) ↔
      ∀ e ∈ fileRefs root, Addressed planned (fileOf m bundle policy (readFileRef e)) e := by
  have hvisits : ∀ v ∈ visits (vendorPlan planned) projectRoot {} (fileRefs root),
      (v.Agrees planned projectRoot (decision planned (readFileRef v.fileRef).refClass
        (fileOf m bundle policy (readFileRef v.fileRef))) ↔
      Addressed planned (fileOf m bundle policy (readFileRef v.fileRef)) v.fileRef) := by
    intro v hv
    have hiff := visit_agrees_iff projectRoot v.fileRef (plan_origins h) (plan_spec h).1
      (fileOf m bundle policy (readFileRef v.fileRef)) v.earlier
    rwa [← visit_step hv] at hiff
  have hrefs := visits_fileRef (vendorPlan planned) projectRoot {} (fileRefs root)
  constructor
  · intro hagrees e he
    rw [← hrefs] at he
    obtain ⟨v, hv, rfl⟩ := List.mem_map.mp he
    exact (hvisits v hv).mp (hagrees v hv)
  · intro haddressed v hv
    refine (hvisits v hv).mpr (haddressed v.fileRef ?_)
    rw [← hrefs]
    exact List.mem_map_of_mem hv

/-- Gathering and rewriting agree on a set exactly when each reference is recorded as the rewriter
expects. -/
theorem rewriting_agrees_iff {root : XmlElement} {planned : AssetPlan}
    (h : plan m bundle root policy = .ok planned) (projectRoot : HostPath) :
    Agrees m bundle policy planned root projectRoot ↔
      ∀ e ∈ fileRefs root, Addressed planned (fileOf m bundle policy (readFileRef e)) e := by
  rw [← each_agrees_iff h projectRoot]
  refine ⟨fun hagrees => hagrees.each, fun heach => ?_⟩
  obtain ⟨hwalk, hframe⟩ := visitFileRefs_spec
    (tag_rewriteOne (vendorPlan planned) projectRoot) root {}
  rw [visitAll_eq_visits] at hwalk
  refine ⟨?_, hframe, (congrArg Prod.fst hwalk).symm, (congrArg Prod.snd hwalk).symm, heach⟩
  have hread := congrArg (List.map readFileRef)
    (visits_fileRef (vendorPlan planned) projectRoot {} (fileRefs root))
  rw [List.map_map] at hread
  exact (collect_eq_fileRefs root).trans hread.symm

end Agreement

/-! A set of Live 11 and one of Live 9. -/

def valueNode (tag value : String) : XmlContent :=
  .element (.mk tag none [("Value", value)] [])

/-- A reference to the loop, as Live 11 writes it. -/
def flatRef : XmlElement :=
  .mk "FileRef" none [] [valueNode "RelativePathType" "1",
    valueNode "RelativePath" "../../loops/break.wav", valueNode "Path" "/loops/break.wav"]

/-- The same reference as Live 9 writes it. -/
def nestedRef : XmlElement :=
  .mk "FileRef" none [] [valueNode "RelativePathType" "1",
    .element (.mk "RelativePath" none [] ((["..", "..", "loops"] : List String).map fun folder =>
      .element (.mk "RelativePathElement" none [("Dir", folder)] []))),
    valueNode "Name" "break.wav"]

def setWith (e : XmlElement) : XmlElement := .mk "Ableton" none [] [.element e]

def songBundle : AbletonBundle :=
  ⟨AuruPm.songFolder, AuruPm.songFolder.child (.text "Song.als")⟩

def deskPlan (root : XmlElement) : AssetPlan :=
  (plan projectDesk songBundle root {}).toOption.getD {}

theorem deskPlan_spec {root : XmlElement}
    (h : (plan projectDesk songBundle root {}).toOption.isSome = true) :
    plan projectDesk songBundle root {} = .ok (deskPlan root) := by
  unfold deskPlan
  cases hplan : plan projectDesk songBundle root {} with
  | error e =>
    rw [hplan] at h
    cases h
  | ok planned => rfl

theorem flat_rewriting_agrees : ∃ planned,
    plan projectDesk songBundle (setWith flatRef) {} = .ok planned ∧
      Agrees projectDesk songBundle {} planned (setWith flatRef) (.ofText "/home/jake/Song") :=
  ⟨deskPlan (setWith flatRef), deskPlan_spec (by decide +kernel),
    (rewriting_agrees_iff (deskPlan_spec (by decide +kernel)) _).mpr (by decide +kernel)⟩

/-- The loop of a Live 9 set is gathered, and its reference is counted as empty and kept. -/
theorem nested_ref_kept : ∃ planned,
    plan projectDesk songBundle (setWith nestedRef) {} = .ok planned ∧
      (∃ stored ∈ planned.assets, stored.origin.isSome = true ∧
        fileOf projectDesk songBundle {} (readFileRef nestedRef) = some stored.source) ∧
      rewriteFileRefs (setWith nestedRef) (vendorPlan planned) (.ofText "/home/jake/Song") =
        (setWith nestedRef, { empty := 1 }) ∧
      ¬Agrees projectDesk songBundle {} planned (setWith nestedRef)
        (.ofText "/home/jake/Song") := by
  have hplan := @deskPlan_spec (setWith nestedRef) (by decide +kernel)
  refine ⟨deskPlan (setWith nestedRef), hplan, by decide +kernel, rfl, fun hagrees => ?_⟩
  have hmem : nestedRef ∈ fileRefs (setWith nestedRef) := List.mem_singleton.mpr rfl
  have haddressed := (each_agrees_iff hplan _).mp hagrees.each nestedRef hmem
  exact absurd haddressed (by decide +kernel)

end Ableton

end AuruPm
