import AuruPm.DawprojectDiff
import Mathlib.Algebra.BigOperators.Group.List.Basic

/-!
# The tracks of two versions of a DAWproject

Each track of either version is in one pair or stands alone, and the cards are those of the pairs in
which something changed and of the tracks that stand alone.
-/

namespace AuruPm

set_option autoImplicit false

open SortedAssoc Pairing

namespace Dawproject

/-- A track with its key. -/
abbrev KeyedTrack := String × TrackView

section Matching
variable {before after : List KeyedTrack} {m : Matches} {e : KeyedTrack}

/-- What makes two tracks a pair. -/
def Belong (old new : KeyedTrack) : Prop :=
  highConfidenceTrackMatch old.2.element new.2.element = true ∨
    old.1 = new.1 ∧ trackKind old.2.element = trackKind new.2.element

/-- The pairs are of tracks that belong together, and no track is in two of them. -/
structure Paired (before after : List KeyedTrack) (m : Matches) : Prop where
  sorted : Sorted m.pairs
  matched : ∀ b, b ∈ m.matchedBefore ↔ ∃ a, get? m.pairs a = some b
  injective : ∀ a a' b, get? m.pairs a = some b → get? m.pairs a' = some b → a = a'
  tracks : ∀ a b, get? m.pairs a = some b → ∃ old new, get? before b = some old ∧
    get? after a = some new ∧ Belong (b, old) (a, new)

theorem Paired.start : Paired before after {} where
  sorted := List.Pairwise.nil
  matched b := by simp [get?]
  injective _ _ _ h := by cases h
  tracks _ _ h := by cases h

theorem get?_add (afterId beforeId a : String) :
    get? (m.add afterId beforeId).pairs a = if a = afterId then some beforeId else get? m.pairs a :=
  get?_insert afterId beforeId m.pairs a

theorem Paired.add (h : Paired before after m) (old new : KeyedTrack)
    (hnew : get? m.pairs new.1 = none) (hold : old.1 ∉ m.matchedBefore)
    (hb : get? before old.1 = some old.2) (ha : get? after new.1 = some new.2)
    (hbelong : Belong old new) : Paired before after (m.add new.1 old.1) where
  sorted := sorted_insert h.sorted new.1 old.1
  matched b := by
    rw [Matches.add, mem_insertKey, h.matched]
    constructor
    · rintro (rfl | ⟨a, hget⟩)
      · exact ⟨new.1, by rw [get?_insert, if_pos rfl]⟩
      · refine ⟨a, ?_⟩
        rw [get?_insert, if_neg]
        · exact hget
        · rintro rfl
          rw [hnew] at hget
          cases hget
    · rintro ⟨a, hget⟩
      rw [get?_insert] at hget
      split at hget
      · exact .inl (Option.some.inj hget).symm
      · exact .inr ⟨a, hget⟩
  injective a a' b hget hget' := by
    have hfresh : ∀ a, get? m.pairs a ≠ some old.1 := fun a h' => hold ((h.matched _).mpr ⟨a, h'⟩)
    rw [get?_add] at hget hget'
    split at hget
    · rename_i haa
      obtain rfl := Option.some.inj hget
      split at hget'
      · rename_i haa'
        rw [haa, haa']
      · exact absurd hget' (hfresh a')
    · split at hget'
      · obtain rfl := Option.some.inj hget'
        exact absurd hget (hfresh a)
      · exact h.injective a a' b hget hget'
  tracks a b hget := by
    rw [get?_add] at hget
    split at hget
    · rename_i haa
      obtain rfl := Option.some.inj hget
      rw [haa]
      exact ⟨old.2, new.2, hb, ha, hbelong⟩
    · exact h.tracks a b hget

/-- What a step may do: nothing, or one pair of this track. -/
def Extends (m m' : Matches) (e : KeyedTrack) : Prop := m' = m ∨ ∃ b, m' = m.add e.1 b

theorem Extends.keeps {m' : Matches} (h : Extends m m' e) {id : String} (hid : id ≠ e.1) :
    get? m'.pairs id = get? m.pairs id := by
  rcases h with rfl | ⟨b, rfl⟩
  · rfl
  · rw [get?_add, if_neg hid]

theorem matchSurviving_step (hb : Sorted before) (ha : Sorted after) (he : e ∈ after)
    (h : Paired before after m) (hfree : get? m.pairs e.1 = none) :
    Paired before after (matchSurviving before m e) ∧ Extends m (matchSurviving before m e) e := by
  unfold matchSurviving
  split
  · rename_i old hcandidates
    have hold : old ∈ before.filter fun old => old.1 ∉ m.matchedBefore ∧
        highConfidenceTrackMatch old.2.element e.2.element := by
      rw [hcandidates]
      exact List.mem_singleton_self old
    obtain ⟨hmem, hcandidate⟩ := List.mem_filter.mp hold
    obtain ⟨hunmatched, hsure⟩ := decide_eq_true_iff.mp hcandidate
    exact ⟨h.add old e hfree hunmatched (get?_of_mem hb hmem) (get?_of_mem ha he) (.inl hsure),
      .inr ⟨old.1, rfl⟩⟩
  · exact ⟨h, .inl rfl⟩

theorem paired_surviving (hb : Sorted before) (ha : Sorted after) {rest : List KeyedTrack}
    (hrest : ∀ e ∈ rest, e ∈ after) (hkeys : (rest.map Prod.fst).Nodup)
    (h : Paired before after m) (hfree : ∀ e ∈ rest, get? m.pairs e.1 = none) :
    Paired before after (rest.foldl (matchSurviving before) m) := by
  induction rest generalizing m with
  | nil => exact h
  | cons e rest ih =>
    obtain ⟨hkey, hkeys⟩ := List.nodup_cons.mp hkeys
    obtain ⟨he, hrest⟩ := List.forall_mem_cons.mp hrest
    obtain ⟨hfree, hfrees⟩ := List.forall_mem_cons.mp hfree
    obtain ⟨hpaired, hextends⟩ := matchSurviving_step hb ha he h hfree
    refine ih hrest hkeys hpaired fun other hother => ?_
    rw [hextends.keeps fun heq => hkey (heq ▸ List.mem_map_of_mem hother)]
    exact hfrees other hother

/-- A track of this key stands alone on one side at most, unless the kinds differ. -/
def Settled (before : List KeyedTrack) (m : Matches) (e : KeyedTrack) : Prop :=
  ∀ old, get? before e.1 = some old → trackKind old.element = trackKind e.2.element →
    (get? m.pairs e.1).isSome = true ∨ e.1 ∈ m.matchedBefore

theorem matchUnchangedId_step (ha : Sorted after) (he : e ∈ after)
    (h : Paired before after m) :
    Paired before after (matchUnchangedId before m e) ∧ Settled before (matchUnchangedId before m e) e ∧
      ∀ other, Settled before m other → Settled before (matchUnchangedId before m e) other := by
  unfold matchUnchangedId
  split
  · rename_i hsome
    exact ⟨h, fun _ _ _ => .inl hsome, fun _ hother => hother⟩
  rename_i hnone
  rw [Option.not_isSome_iff_eq_none] at hnone
  cases hold : get? before e.1 with
  | none =>
    refine ⟨h, fun old hget => ?_, fun _ hother => hother⟩
    rw [hold] at hget
    cases hget
  | some old =>
    dsimp only
    split
    · rename_i hfree
      refine ⟨h.add (e.1, old) e hnone hfree.1 hold (get?_of_mem ha he) (.inr ⟨rfl, hfree.2⟩),
        fun _ _ _ => .inl (by rw [get?_add, if_pos rfl]; rfl), fun other hother old' hget hkind => ?_⟩
      rw [get?_add, Matches.add, mem_insertKey]
      rcases hother old' hget hkind with hpair | hmatched
      · left
        split
        · rfl
        · exact hpair
      · exact .inr (.inr hmatched)
    · rename_i hnot
      refine ⟨h, fun old' hget hkind => .inr ?_, fun _ hother => hother⟩
      obtain rfl := Option.some.inj (hold.symm.trans hget)
      by_contra hunmatched
      exact hnot ⟨hunmatched, hkind⟩

theorem paired_unchangedId (ha : Sorted after) {rest : List KeyedTrack}
    (hrest : ∀ e ∈ rest, e ∈ after) (h : Paired before after m) :
    Paired before after (rest.foldl (matchUnchangedId before) m) ∧
      (∀ e ∈ rest, Settled before (rest.foldl (matchUnchangedId before) m) e) ∧
      ∀ other, Settled before m other →
        Settled before (rest.foldl (matchUnchangedId before) m) other := by
  induction rest generalizing m with
  | nil => exact ⟨h, fun _ he => absurd he List.not_mem_nil, fun _ hother => hother⟩
  | cons e rest ih =>
    obtain ⟨he, hrest⟩ := List.forall_mem_cons.mp hrest
    obtain ⟨hpaired, hown, hkept⟩ := matchUnchangedId_step ha he h
    obtain ⟨hall, hsettled, hkept'⟩ := ih hrest hpaired
    exact ⟨hall, List.forall_mem_cons.mpr ⟨hkept' e hown, hsettled⟩,
      fun other hother => hkept' other (hkept other hother)⟩

/-- Both loops together. -/
theorem paired_matchTracks (hb : Sorted before) (ha : Sorted after) :
    Paired before after (matchTracks before after) ∧
      ∀ e ∈ after, Settled before (matchTracks before after) e := by
  have hsurviving : Paired before after (after.foldl (matchSurviving before) {}) :=
    paired_surviving hb ha (fun _ he => he) (List.pairwise_map.mpr (ha.imp ne_of_lt)) Paired.start
      fun _ _ => rfl
  obtain ⟨hpaired, hsettled, -⟩ := paired_unchangedId ha (fun _ he => he) hsurviving
  exact ⟨hpaired, hsettled⟩

end Matching

/-! Cards. -/

section Cards
variable (before after : List KeyedTrack) (m : Matches)

def pairOf (pair : String × String) : Option (KeyedTrack × KeyedTrack) :=
  (get? before pair.2).bind fun old => (get? after pair.1).map fun new =>
    ((pair.2, old), (pair.1, new))

/-- The old and the new track of each pair. -/
def pairedTracks : List (KeyedTrack × KeyedTrack) := m.pairs.filterMap (pairOf before after)

/-- New tracks that stand alone. -/
def newTracks : List KeyedTrack := after.filter fun e => (get? m.pairs e.1).isNone

/-- Old tracks that stand alone. -/
def goneTracks : List KeyedTrack := before.filter fun e => e.1 ∉ m.matchedBefore

variable {before after m} (h : Paired before after m)
include h

theorem Paired.pairOf_eq {pair : String × String} (hpair : pair ∈ m.pairs) :
    ∃ old new, get? before pair.2 = some old ∧ get? after pair.1 = some new ∧
      pairOf before after pair = some ((pair.2, old), (pair.1, new)) ∧
        Belong (pair.2, old) (pair.1, new) := by
  obtain ⟨old, new, hold, hnew, hbelong⟩ := h.tracks _ _ (get?_of_mem h.sorted hpair)
  exact ⟨old, new, hold, hnew, by rw [pairOf, hold, hnew]; rfl, hbelong⟩

theorem Paired.mem_pairedTracks {old new : KeyedTrack} (hp : (old, new) ∈ pairedTracks before after m) :
    get? m.pairs new.1 = some old.1 ∧ get? before old.1 = some old.2 ∧
      get? after new.1 = some new.2 ∧ Belong old new := by
  obtain ⟨pair, hpair, heq⟩ := List.mem_filterMap.mp hp
  obtain ⟨old', new', hold, hnew, hpairOf, hbelong⟩ := h.pairOf_eq hpair
  obtain ⟨rfl, rfl⟩ := Prod.mk.inj (Option.some.inj (hpairOf.symm.trans heq))
  exact ⟨get?_of_mem h.sorted hpair, hold, hnew, hbelong⟩

theorem Paired.nodup_matched : (m.pairs.map Prod.snd).Nodup := by
  refine (List.pairwise_map.mpr (h.sorted.imp_of_mem fun {p q} hp hq hlt heq => ?_))
  have hsame := h.injective p.1 q.1 p.2 (get?_of_mem h.sorted hp)
    (heq ▸ get?_of_mem h.sorted hq)
  exact ne_of_lt hlt hsame

theorem Paired.perm_before (hb : Sorted before) :
    before.Perm ((pairedTracks before after m).map Prod.fst ++ goneTracks before m) := by
  have hperm := perm_named hb h.nodup_matched fun pair hpair => by
    obtain ⟨old, -, hold, -⟩ := h.pairOf_eq hpair
    rw [hold]
    rfl
  have hgone : (before.filter fun e => e.1 ∉ m.pairs.map Prod.snd) = goneTracks before m := by
    refine List.filter_congr fun e _ => ?_
    have hiff : e.1 ∈ m.pairs.map Prod.snd ↔ e.1 ∈ m.matchedBefore := by
      rw [h.matched, List.mem_map]
      constructor
      · rintro ⟨pair, hpair, heq⟩
        exact ⟨pair.1, heq ▸ get?_of_mem h.sorted hpair⟩
      · rintro ⟨a, hget⟩
        exact ⟨(a, e.1), mem_of_get? hget, rfl⟩
    simp only [hiff]
  have hpaired : (m.pairs.filterMap fun e => (get? before e.2).map fun v => (e.2, v)) =
      (pairedTracks before after m).map Prod.fst := by
    rw [pairedTracks, List.map_filterMap]
    refine List.filterMap_congr fun pair hpair => ?_
    obtain ⟨old, new, hold, -, hpairOf, -⟩ := h.pairOf_eq hpair
    rw [hpairOf, hold]
    rfl
  rw [hgone, hpaired] at hperm
  exact hperm

theorem Paired.perm_after (ha : Sorted after) :
    after.Perm ((pairedTracks before after m).map Prod.snd ++ newTracks after m) := by
  have hkeys : ((m.pairs.map Prod.swap).map Prod.snd).Nodup := by
    rw [List.map_map]
    exact List.pairwise_map.mpr (h.sorted.imp ne_of_lt)
  have hperm := perm_named ha hkeys fun pair hpair => by
    obtain ⟨pair', hpair', rfl⟩ := List.mem_map.mp hpair
    obtain ⟨-, new, -, hnew, -⟩ := h.pairOf_eq hpair'
    change (get? after pair'.1).isSome = true
    rw [hnew]
    rfl
  have hnew : (after.filter fun e => e.1 ∉ (m.pairs.map Prod.swap).map Prod.snd) =
      newTracks after m := by
    refine List.filter_congr fun e _ => ?_
    rw [List.map_map]
    have hiff : e.1 ∈ m.pairs.map (Prod.snd ∘ Prod.swap) ↔ ¬ (get? m.pairs e.1).isNone = true := by
      rw [Option.isNone_iff_eq_none, get?_eq_none_iff, not_not]
      rfl
    simp only [hiff, not_not, Bool.decide_eq_true]
  have hpaired : ((m.pairs.map Prod.swap).filterMap fun e => (get? after e.2).map fun v => (e.2, v)) =
      (pairedTracks before after m).map Prod.snd := by
    rw [pairedTracks, List.map_filterMap, List.filterMap_map]
    refine List.filterMap_congr fun pair hpair => ?_
    obtain ⟨old, new, -, hnew, hpairOf, -⟩ := h.pairOf_eq hpair
    change (get? after pair.1).map _ = _
    rw [hpairOf, hnew]
    rfl
  rw [hnew, hpaired] at hperm
  exact hperm

/-! Clips. -/

omit h in
theorem length_clipIndex_le (clips : List XmlElement) : (clipIndex clips).length ≤ clips.length := by
  have hindex := length_foldl_insert_le (clips.zipIdx.map clipEntry) []
  rwa [List.length_map, List.length_zipIdx, List.length_nil, Nat.add_zero] at hindex

omit h in
theorem sum_filterMap {A B : Type} (f : A → Option B) (g : B → Nat) (l : List A) :
    ((l.filterMap f).map g).sum = (l.map fun a => (f a).elim 0 g).sum := by
  induction l with
  | nil => rfl
  | cons a l ih => cases hf : f a <;> simp [hf, ih]

/-- Clips of a track that share their key with another one. -/
def hiddenClips (track : TrackView) : Nat := track.clips.length - (clipIndex track.clips).length

variable (fmtPosBeats : Nat × Nat → Float → String) (timeSig : Nat × Nat)

def pairCard (p : KeyedTrack × KeyedTrack) : Option ChannelDiff :=
  modifiedTrack fmtPosBeats timeSig p.1.2 p.2.2

omit h in
/-- Between the clips of a pair there are as many more as were added and not removed. -/
theorem pairCard_clips (p : KeyedTrack × KeyedTrack) :
    ((pairCard fmtPosBeats timeSig p).elim 0 ChannelDiff.clipsAdded) + (clipIndex p.1.2.clips).length =
      ((pairCard fmtPosBeats timeSig p).elim 0 ChannelDiff.clipsRemoved) +
        (clipIndex p.2.2.clips).length := by
  have hold : Sorted (clipIndex p.1.2.clips) := sorted_foldl_insert _ List.Pairwise.nil
  have hnew : Sorted (clipIndex p.2.2.clips) := sorted_foldl_insert _ List.Pairwise.nil
  have hafter := length_matched_add (clipIndex p.1.2.clips) (clipIndex p.2.2.clips)
  have hbefore := length_matched_add (clipIndex p.2.2.clips) (clipIndex p.1.2.clips)
  have hswap := length_matched_swap hold hnew
  have hcounts : ∀ m m' : List (String × XmlElement),
      (unmatched m m').length = m'.countP fun e => (get? m e.1).isNone := by
    intro m m'
    rw [unmatched, List.length_map, List.countP_eq_length_filter]
  rw [hcounts] at hafter hbefore
  have hcard : ∀ counts : ClipCounts, ∀ rows : List ChangeRow,
      clipRows fmtPosBeats timeSig (clipIndex p.1.2.clips) (clipIndex p.2.2.clips) = (counts, rows) →
        (pairCard fmtPosBeats timeSig p).elim 0 ChannelDiff.clipsAdded = counts.added ∧
          (pairCard fmtPosBeats timeSig p).elim 0 ChannelDiff.clipsRemoved = counts.removed := by
    intro counts rows hrows
    rw [pairCard, modifiedTrack, hrows]
    dsimp only
    split
    · rename_i hnone
      rw [hnone.2]
      exact ⟨rfl, rfl⟩
    · exact ⟨rfl, rfl⟩
  obtain ⟨hadded, hremoved⟩ := hcard _ _ rfl
  rw [hadded, hremoved]
  dsimp only
  omega

omit h in
/-- The clips of pairs differ by those that the cards count and by those hidden behind others. -/
theorem pairs_balance (pairs : List (KeyedTrack × KeyedTrack)) :
    (pairs.map fun p => p.1.2.clips.length).sum +
        ((pairs.filterMap (pairCard fmtPosBeats timeSig)).map ChannelDiff.clipsAdded).sum +
          (pairs.map fun p => hiddenClips p.2.2).sum =
      (pairs.map fun p => p.2.2.clips.length).sum +
        ((pairs.filterMap (pairCard fmtPosBeats timeSig)).map ChannelDiff.clipsRemoved).sum +
          (pairs.map fun p => hiddenClips p.1.2).sum := by
  rw [sum_filterMap, sum_filterMap]
  induction pairs with
  | nil => rfl
  | cons p pairs ih =>
    have hclips := pairCard_clips fmtPosBeats timeSig p
    have hold := length_clipIndex_le p.1.2.clips
    have hnew := length_clipIndex_le p.2.2.clips
    simp only [List.map_cons, List.sum_cons, hiddenClips] at ih ⊢
    omega

theorem Paired.perm_cards (ha : Sorted after) :
    (after.filterMap (afterCard fmtPosBeats timeSig m before) ++
        (before.filter fun e => e.1 ∉ m.matchedBefore).map fun e => removedTrack e.2).Perm
      ((pairedTracks before after m).filterMap (pairCard fmtPosBeats timeSig) ++
        (newTracks after m).map (fun e => addedTrack e.2) ++
          (goneTracks before m).map fun e => removedTrack e.2) := by
  refine List.Perm.append_right _ (((h.perm_after ha).filterMap _).trans ?_)
  have hpaired : ((pairedTracks before after m).map Prod.snd).filterMap
      (afterCard fmtPosBeats timeSig m before) =
        (pairedTracks before after m).filterMap (pairCard fmtPosBeats timeSig) := by
    rw [List.filterMap_map]
    refine List.filterMap_congr fun p hp => ?_
    obtain ⟨old, new⟩ := p
    obtain ⟨hpair, hold, -, -⟩ := h.mem_pairedTracks hp
    rw [Function.comp_apply, afterCard, hpair, Option.bind_some, hold]
    rfl
  have hnew : (newTracks after m).filterMap (afterCard fmtPosBeats timeSig m before) =
      (newTracks after m).map fun e => addedTrack e.2 := by
    rw [← List.filterMap_eq_map]
    refine List.filterMap_congr fun e he => ?_
    have hnone := Option.isNone_iff_eq_none.mp (List.mem_filter.mp he).2
    rw [afterCard, hnone]
    rfl
  rw [List.filterMap_append, hpaired, hnew]

end Cards

end Dawproject

end AuruPm
