import AuruPm.FlDiff
import AuruPm.FileRefs
import AuruPm.Lib.FloatText
import AuruPm.Lib.LengthPrefix
import AuruPm.Lib.Pairing

/-!
# Clips of two versions of a track

Clips are paired by id and occurrence, and what is left by start and length. Every clip of either
version is counted once, and the counts of the exchanged versions are the exchanged counts.
-/

namespace AuruPm

set_option autoImplicit false

open SortedAssoc FloatText Pairing

theorem XmlElement.toValue_injective : Function.Injective XmlElement.toValue := fun a b h => by
  have hread := readElement_toValue a
  rw [h, readElement_toValue] at hread
  exact (Option.some.inj hread).symm

instance : DecidableEq XmlElement := fun a b =>
  decidable_of_iff (a.toValue = b.toValue) XmlElement.toValue_injective.eq_iff

namespace Ableton

def clipElements (track : XmlElement) : List XmlElement :=
  track.descendants.filter fun node => node.tag = "MidiClip" ∨ node.tag = "AudioClip"

def clipKey (id : String) (occurrence : Nat) : String := id ++ "#" ++ toString occurrence

/-- Clips with their keys, given how often each id was seen. -/
def keyClips : List (String × Nat) → List XmlElement → List (String × XmlElement)
  | _, [] => []
  | seen, clip :: rest =>
    let id := clip.id.getD "?"
    let occurrence := (get? seen id).getD 0
    (clipKey id occurrence, clip) :: keyClips (SortedAssoc.insert id (occurrence + 1) seen) rest

/-- Clips of one track by key. -/
def clips (track : XmlElement) : List (String × XmlElement) :=
  (keyClips [] (clipElements track)).foldl (fun m e => SortedAssoc.insert e.1 e.2 m) []

def start (clip : XmlElement) : Option Float := (clip.childValue "CurrentStart").bind parseFloat

def finish (clip : XmlElement) : Option Float := (clip.childValue "CurrentEnd").bind parseFloat

def length (clip : XmlElement) : Option Float := do
  return (← finish clip) - (← start clip)

section Rows
variable (fmtPosBeats fmtF64 : Float → String)

def position (clip : XmlElement) : String := (start clip).elim "?" fmtPosBeats

def beats (value : Option Float) : String := value.elim "?" fun n => fmtF64 n ++ " beats"

def clipName (clip : XmlElement) : String :=
  ((clip.childValue "Name").filter (· ≠ "")).getD ("clip at " ++ position fmtPosBeats clip)

/-- The rows of a clip that both versions have. -/
def matchedRows (previous clip : XmlElement) : List ChangeRow :=
  (if start previous == start clip then []
    else [⟨.moved, .modify, clipName fmtPosBeats clip, some (position fmtPosBeats previous),
      some (position fmtPosBeats clip)⟩]) ++
  if length previous == length clip then []
  else [⟨.length, .modify, clipName fmtPosBeats clip, some (beats fmtF64 (length previous)),
    some (beats fmtF64 (length clip))⟩]

def clipChanged (previous clip : XmlElement) : Bool :=
  !(start previous == start clip) || !(length previous == length clip) || decide (previous ≠ clip)

/-- At exactly the same place and of the same length. -/
def sameSpot (new gone : XmlElement) : Bool := start new == start gone && length new == length gone

structure ClipCounts where
  added : Nat
  removed : Nat
  modified : Nat
  deriving DecidableEq, Repr

/-- The counts and the rows. -/
def diffClips (before after : XmlElement) : ClipCounts × List ChangeRow :=
  let beforeClips := clips before
  let afterClips := clips after
  let pairs := matched beforeClips afterClips
  let changed := pairs.countP fun pair => clipChanged pair.2.1 pair.2.2
  let unmatchedNew := unmatched beforeClips afterClips
  let unmatchedGone := unmatched afterClips beforeClips
  let rest := pairOff sameSpot unmatchedGone unmatchedNew
  (⟨rest.2.1.length, rest.1.length, changed + rest.2.2⟩,
    (pairs.flatMap fun pair => matchedRows fmtPosBeats fmtF64 pair.2.1 pair.2.2) ++
      rest.2.1.map (fun clip => ⟨.added, .add, clipName fmtPosBeats clip, none,
        some (position fmtPosBeats clip)⟩) ++
      rest.1.map fun clip => ⟨.removed, .remove, clipName fmtPosBeats clip,
        some (position fmtPosBeats clip), none⟩)

/-- Clips paired by key in which nothing changed. -/
def unchangedClips (before after : XmlElement) : Nat :=
  (matched (clips before) (clips after)).countP fun pair => !clipChanged pair.2.1 pair.2.2

end Rows

/-! Keys. -/

/-- The last number sign ends the id. -/
theorem clipKey_inj {id id' : String} {n n' : Nat} (h : clipKey id n = clipKey id' n') :
    id = id' ∧ n = n' := by
  have hlists : id.toList ++ '#' :: (toString n).toList = id'.toList ++ '#' :: (toString n').toList := by
    simpa [clipKey] using congrArg String.toList h
  have hreverse := congrArg List.reverse hlists
  simp only [List.reverse_append, List.reverse_cons, List.append_assoc, List.singleton_append] at hreverse
  have hdigit : ('#' : Char).isDigit = false := rfl
  obtain ⟨hdigits, hid⟩ := LengthPrefix.append_cons_inj
    (by simpa using LengthPrefix.not_mem_repr hdigit n)
    (by simpa using LengthPrefix.not_mem_repr hdigit n') hreverse
  exact ⟨String.toList_injective (List.reverse_injective hid),
    LengthPrefix.repr_toList_inj (List.reverse_injective hdigits)⟩

theorem length_keyClips (seen : List (String × Nat)) (list : List XmlElement) :
    (keyClips seen list).length = list.length := by
  induction list generalizing seen with
  | nil => rfl
  | cons clip rest ih => rw [keyClips, List.length_cons, List.length_cons, ih]

/-- Keys still to come have occurrences that were not seen. -/
theorem mem_keyClips {seen : List (String × Nat)} {list : List XmlElement}
    {e : String × XmlElement} (h : e ∈ keyClips seen list) :
    ∃ id n, e.1 = clipKey id n ∧ (get? seen id).getD 0 ≤ n := by
  induction list generalizing seen with
  | nil => cases h
  | cons clip rest ih =>
    rcases List.mem_cons.mp h with rfl | h
    · exact ⟨_, _, rfl, Nat.le_refl _⟩
    · obtain ⟨id, n, hkey, hle⟩ := ih h
      refine ⟨id, n, hkey, ?_⟩
      rw [get?_insert] at hle
      split at hle
      · rename_i hid
        rw [hid]
        exact Nat.le_of_succ_le hle
      · exact hle

theorem nodup_keyClips (seen : List (String × Nat)) (list : List XmlElement) :
    ((keyClips seen list).map Prod.fst).Nodup := by
  induction list generalizing seen with
  | nil => exact List.nodup_nil
  | cons clip rest ih =>
    refine List.nodup_cons.mpr ⟨?_, ih _⟩
    intro hmem
    obtain ⟨e, he, hkey⟩ := List.mem_map.mp hmem
    obtain ⟨id, n, hid, hle⟩ := mem_keyClips he
    obtain ⟨rfl, rfl⟩ := clipKey_inj (hid.symm.trans hkey)
    rw [get?_insert, if_pos rfl] at hle
    exact Nat.not_succ_le_self _ hle

theorem sorted_clips (track : XmlElement) : Sorted (clips track) :=
  sorted_foldl_insert _ List.Pairwise.nil

/-- No clip of a track is lost under the key of another. -/
theorem length_clips (track : XmlElement) : (clips track).length = (clipElements track).length := by
  have hperm := perm_foldl_insert (keyClips [] (clipElements track)) []
    (by simpa using nodup_keyClips [] (clipElements track))
  rw [clips, hperm.length_eq, List.append_nil, length_keyClips]

/-! Counts. -/

/-- The key that clips at one spot share. -/
def spotKey (clip : XmlElement) : Option (Option Key × Option Key) :=
  (optionKey (start clip)).bind fun s => (optionKey (length clip)).map fun l => (s, l)

theorem sameSpot_iff (new gone : XmlElement) :
    sameSpot new gone = true ↔ ∃ k, spotKey new = some k ∧ spotKey gone = some k := by
  rw [sameSpot, Bool.and_eq_true, option_beq_iff, option_beq_iff]
  constructor
  · rintro ⟨⟨s, hs, hs'⟩, l, hl, hl'⟩
    exact ⟨(s, l), by simp [spotKey, hs, hl], by simp [spotKey, hs', hl']⟩
  · rintro ⟨⟨s, l⟩, hnew, hgone⟩
    simp only [spotKey, Option.bind_eq_some_iff, Option.map_eq_some_iff, Prod.mk.injEq] at hnew hgone
    obtain ⟨_, hs, _, hl, rfl, rfl⟩ := hnew
    obtain ⟨_, hs', _, hl', rfl, rfl⟩ := hgone
    exact ⟨⟨_, hs, hs'⟩, _, hl, hl'⟩

theorem clipChanged_comm (previous clip : XmlElement) :
    clipChanged previous clip = clipChanged clip previous := by
  rw [clipChanged, clipChanged, option_beq_comm (start previous), option_beq_comm (length previous),
    decide_eq_decide.mpr ne_comm]

section Accounting
variable (fmtPosBeats fmtF64 : Float → String) (before after : XmlElement)

/-- Exchanging the versions exchanges what was added and what was removed. -/
theorem diffClips_swap :
    (diffClips fmtPosBeats fmtF64 after before).1 =
      ⟨(diffClips fmtPosBeats fmtF64 before after).1.removed,
        (diffClips fmtPosBeats fmtF64 before after).1.added,
        (diffClips fmtPosBeats fmtF64 before after).1.modified⟩ := by
  have hpairs := pairOff_comm sameSpot_iff (unmatched (clips before) (clips after))
    (unmatched (clips after) (clips before))
  have hleft := pairOff_left sameSpot (unmatched (clips before) (clips after))
    (unmatched (clips after) (clips before))
  have hright := pairOff_right sameSpot (unmatched (clips before) (clips after))
    (unmatched (clips after) (clips before))
  have hleft' := pairOff_left sameSpot (unmatched (clips after) (clips before))
    (unmatched (clips before) (clips after))
  have hright' := pairOff_right sameSpot (unmatched (clips after) (clips before))
    (unmatched (clips before) (clips after))
  have hchanged := countP_matched_swap (sorted_clips before) (sorted_clips after) clipChanged_comm
  simp only [diffClips, ClipCounts.mk.injEq]
  refine ⟨?_, ?_, ?_⟩ <;> omega

/-- Every clip of either version is counted once. -/
theorem clip_accounting :
    ((clipElements after).length : Int) - (clipElements before).length =
        (diffClips fmtPosBeats fmtF64 before after).1.added -
          (diffClips fmtPosBeats fmtF64 before after).1.removed ∧
      (diffClips fmtPosBeats fmtF64 before after).1.removed +
          (diffClips fmtPosBeats fmtF64 before after).1.modified + unchangedClips before after =
        (clipElements before).length ∧
      (diffClips fmtPosBeats fmtF64 after before).1.added =
        (diffClips fmtPosBeats fmtF64 before after).1.removed ∧
      (diffClips fmtPosBeats fmtF64 after before).1.removed =
        (diffClips fmtPosBeats fmtF64 before after).1.added ∧
      (diffClips fmtPosBeats fmtF64 after before).1.modified =
        (diffClips fmtPosBeats fmtF64 before after).1.modified := by
  have hleft := pairOff_left sameSpot (unmatched (clips after) (clips before))
    (unmatched (clips before) (clips after))
  have hright := pairOff_right sameSpot (unmatched (clips after) (clips before))
    (unmatched (clips before) (clips after))
  have hafter := length_matched_add (clips before) (clips after)
  have hbefore := length_matched_add (clips after) (clips before)
  have hmatched := length_matched_swap (sorted_clips before) (sorted_clips after)
  have hchanged := List.length_eq_countP_add_countP
    (fun pair : String × XmlElement × XmlElement => clipChanged pair.2.1 pair.2.2)
    (l := matched (clips before) (clips after))
  rw [length_clips] at hafter hbefore
  rw [diffClips_swap fmtPosBeats fmtF64 before after]
  refine ⟨?_, ?_, rfl, rfl, rfl⟩
  · simp only [diffClips]
    omega
  · simp only [diffClips, unchangedClips]
    simp only [Bool.not_eq_true, Bool.decide_eq_false] at hchanged
    omega

end Accounting

end Ableton

end AuruPm
