import AuruPm.MissedAssets

/-!
# The files of a merge

The manifest of a merge is planned from the disk of the machine that merges. What the plan takes
up is held or reported, and what a DAWproject embeds is always held. A file that only the remote
side had is reported.
-/

namespace AuruPm

set_option autoImplicit false

open SortedAssoc Threads

section Accounts
variable {Client Bytes Hash : Type} {F : Formats Bytes Hash} {C : Codecs Bytes Hash}

theorem snapshotResource_path {v : Value} {resource : SnapshotResource Bytes Hash}
    (h : snapshotResource F C v = .ok resource) :
    (v.get "id").bind Value.asStr = some resource.path := by
  unfold snapshotResource at h
  split at h
  · cases h
  · rename_i path hpath
    simp only [bind_ok_iff] at h
    obtain ⟨inline, -, hash, -, size, -, h⟩ := h
    cases h
    exact hpath

/-- The paths of the resources are the ids that the typed reader finds. -/
theorem snapshotResource_paths {elems : List Value} {rs : List (ArchiveResource Hash)}
    {resources : List (SnapshotResource Bytes Hash)}
    (hrs : List.Forall₂ (fun v r => readResource C v = some r) elems rs)
    (hresources : List.Forall₂ (fun v d => snapshotResource F C v = .ok d) elems resources) :
    resources.map SnapshotResource.path = rs.map ArchiveResource.id := by
  induction hrs generalizing resources with
  | nil =>
    cases hresources
    rfl
  | @cons v r elems rs hr _ ih =>
    cases hresources with
    | cons hd hrest =>
      have hpath := snapshotResource_path hd
      rw [List.map_cons, List.map_cons, ih hrest]
      cases v with
      | object fields =>
        obtain ⟨hid, -⟩ := readResource_object_iff.mp hr
        have hfield : (get? fields "id").bind Value.asStr = some _ := hpath
        rw [Option.some.inj (hfield.symm.trans hid)]
      | _ => cases hpath

/-- No two resources of a validated DAWproject share a path. -/
theorem snapshotResources_nodup {v : Value} (hformat : snapshotFormat C v = .ok .dawproject)
    {resources : List (SnapshotResource Bytes Hash)}
    (h : snapshotResources F C v = .ok resources) :
    (resources.map SnapshotResource.path).Nodup := by
  obtain ⟨fields, p, rfl, -, hp, hvalid⟩ := snapshotFormat_dawproject hformat
  obtain ⟨-, -, -, -, hread⟩ := readPortable_object_iff.mp hp
  obtain ⟨-, -, -, -, hids⟩ := PortableSnapshot.validate_ok_iff.mp hvalid
  unfold snapshotResources at h
  split at h
  · cases h
    exact List.nodup_nil
  · have hget : (Value.object fields).get "resources" = get? fields "resources" := rfl
    rw [hget] at h
    cases hfield : get? fields "resources" with
    | none =>
      rw [hfield] at h
      cases h
      exact List.nodup_nil
    | some field =>
      rw [hfield] at h hread
      cases field with
      | array elems =>
        have hrs : elems.mapM (readResource C) = some p.resources := hread
        rw [snapshotResource_paths (mapM_some_iff.mp hrs) (mapM_ok_iff.mp h)]
        exact (validateResources_ok_iff.mp hids).2
      | _ => cases hread

variable [DecidableEq Hash] {problems : Value → List IntegrityProblem}
variable {info : Value → Option Bytes}

end Accounts

/-! A loop that only the remote side has. -/

def audioClip (path : String) : Value :=
  .object [("data", .object [("Audio", .object [("file_path", .string path)])])]

/-- A native project with one channel. -/
def nativeSong (clips : List String) (title : String) : Value :=
  .object [("channels", .array [.object [("clips", .array (clips.map audioClip))]]),
    ("title", .string title)]

/-- A machine without the loop. -/
def otherDesk : Machine Term :=
  desk songFolder ["Song.als", "kick.wav"] (.ofText "/loops/other.wav") nodup_songNames
    plain_songNames

/-- A first version without clips, which a second client restored. -/
def emptyOnce : Shared Nat Term Term :=
  let s : Shared Nat Term Term := Shared.start.pushAlone symbolicJson dawReaders 1 0
    (pushFrom projectDesk songFolder (nativeSong [] "Untitled"))
  s.save 1 (restoredAt s)

/-- The first client adds a clip. -/
def addsBreak : PushRequest Nat Term Term :=
  pushFrom projectDesk songFolder (nativeSong ["/loops/break.wav"] "Untitled")

/-- The second one, whose machine does not have the loop, gives the song a title. -/
def addsTitle : PushRequest Nat Term Term :=
  { pushFrom otherDesk songFolder (nativeSong [] "Dawn") with client := 1 }

/-- The second client's push, after the first one's. -/
def afterBreak : Shared Nat Term Term := emptyOnce.pushAlone symbolicJson dawReaders 2 1 addsBreak

theorem addsTitle_merges : ∃ d, Push.Produces symbolicJson dawReaders addsTitle d ∧
    d.wasMerge = true ∧ afterBreak.versions.head? = d.commit.parents.getLast? ∧
    d.snapshotBytes = .value (nativeSong ["/loops/break.wav"] "Dawn") ∧
    d.manifest.entries = [] := by
  obtain ⟨d, hd, ht⟩ := deliveryAt_such
    (show (deliveryAt afterBreak 3 2 addsTitle).any (fun d =>
      decide (d.wasMerge = true ∧ afterBreak.versions.head? = d.commit.parents.getLast? ∧
        d.snapshotBytes = .value (nativeSong ["/loops/break.wav"] "Dawn") ∧
        d.manifest.entries = [])) = true by decide +kernel)
  exact ⟨d, hd, of_decide_eq_true ht⟩

end AuruPm
