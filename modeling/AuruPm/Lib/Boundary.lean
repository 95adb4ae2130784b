import AuruPm.Lib.Walk
import Mathlib.Data.Set.Insert

/-!
# A boundary on a line of records

Records point at parents. A head is shown with its line of ancestors, down to a boundary when
the line has one. Moving the boundary up takes records out of what is shown. They stay out
as long as each new head has the boundary on its line, or none of the records taken out.
-/

namespace Boundary

set_option autoImplicit false

universe u

variable {K : Type u}

/-- A record and all its ancestors. -/
abbrev Lineage (parent : K → Option K) (k : K) (line : List K) : Prop :=
  Walk.Chain (fun k => (.ok k : Except Empty K)) parent (fun _ => false) (some k) line

section Lines
variable {parent parent' : K → Option K} {k : K} {line : List K}

theorem read_self (k v : K) (h : (.ok k : Except Empty K) = .ok v) : id v = k := by
  cases h
  rfl

theorem Lineage.nodup (h : Lineage parent k line) : line.Nodup := by
  have hnodup := Walk.Chain.nodup read_self h
  rwa [List.map_id] at hnodup

theorem Lineage.drop {before after : List K} {x : K}
    (h : Lineage parent k (before ++ x :: after)) : Lineage parent x (x :: after) :=
  Walk.Chain.drop read_self h

theorem Lineage.of_mem (h : Lineage parent k line) {x : K} (hx : x ∈ line) :
    ∃ before after, line = before ++ x :: after ∧ Lineage parent x (x :: after) := by
  obtain ⟨before, after, rfl⟩ := List.append_of_mem hx
  exact ⟨before, after, rfl, h.drop⟩

theorem Lineage.root (h : parent k = none) : Lineage parent k [k] :=
  .cons rfl rfl (h ▸ .nil)

theorem Lineage.step {p : K} (h : parent k = some p) (hline : Lineage parent p line) :
    Lineage parent k (k :: line) :=
  .cons rfl rfl (h ▸ hline)

theorem Lineage.congr {start : Option K}
    (h : Walk.Chain (fun k => (.ok k : Except Empty K)) parent (fun _ => false) start line)
    (same : ∀ x ∈ line, parent' x = parent x) :
    Walk.Chain (fun k => (.ok k : Except Empty K)) parent' (fun _ => false) start line := by
  induction h with
  | nil => exact .nil
  | stop hr hs => cases hs
  | cons hr hs _ ih =>
    cases hr
    refine .cons rfl rfl ?_
    rw [same _ List.mem_cons_self]
    exact ih fun x hx => same x (List.mem_cons_of_mem _ hx)

end Lines

section Views
variable [DecidableEq K]

/-- The part of a line down to the boundary. -/
def upTo (floor : Option K) : List K → List K
  | [] => []
  | k :: line => if some k = floor then [k] else k :: upTo floor line

theorem upTo_cases (floor : Option K) (line : List K) :
    ((∀ f, floor = some f → f ∉ line) ∧ upTo floor line = line) ∨
      ∃ f before after, floor = some f ∧ line = before ++ f :: after ∧
        upTo floor line = before ++ [f] := by
  induction line with
  | nil => exact Or.inl ⟨fun f _ => List.not_mem_nil, rfl⟩
  | cons k line ih =>
    by_cases hk : some k = floor
    · exact Or.inr ⟨k, [], line, hk.symm, rfl, by rw [upTo, if_pos hk, List.nil_append]⟩
    · rcases ih with ⟨hnot, heq⟩ | ⟨f, before, after, hf, hline, heq⟩
      · refine Or.inl ⟨?_, by rw [upTo, if_neg hk, heq]⟩
        intro f hf hmem
        rcases List.mem_cons.mp hmem with rfl | hmem
        · exact hk hf.symm
        · exact hnot f hf hmem
      · exact Or.inr ⟨f, k :: before, after, hf, by rw [hline, List.cons_append],
          by rw [upTo, if_neg hk, heq, List.cons_append]⟩

theorem mem_of_mem_upTo {floor : Option K} {line : List K} {x : K} (h : x ∈ upTo floor line) :
    x ∈ line := by
  rcases upTo_cases floor line with ⟨-, heq⟩ | ⟨f, before, after, -, rfl, heq⟩
  · rwa [heq] at h
  · rw [heq] at h
    rcases List.mem_append.mp h with h | h
    · exact List.mem_append_left _ h
    · exact List.mem_append_right _ (List.mem_singleton.mp h ▸ List.mem_cons_self)

/-- Stopping at a shown record shows no more. -/
theorem upTo_of_mem {floor : Option K} {before after : List K} {k : K}
    (hnodup : (before ++ k :: after).Nodup) (h : k ∈ upTo floor (before ++ k :: after)) :
    upTo (some k) (before ++ k :: after) = before ++ [k] ∧
      before ++ [k] ⊆ upTo floor (before ++ k :: after) := by
  induction before with
  | nil => exact ⟨if_pos rfl, by simpa using h⟩
  | cons b before ih =>
    rw [List.cons_append] at hnodup h ⊢
    have hne : b ≠ k := by
      rintro rfl
      exact (List.nodup_cons.mp hnodup).1 (List.mem_append_right _ List.mem_cons_self)
    have hb : some b ≠ floor := by
      intro hb
      rw [upTo, if_pos hb] at h
      exact hne (List.mem_singleton.mp h).symm
    rw [upTo, if_neg hb] at h
    obtain ⟨heq, hsub⟩ := ih hnodup.of_cons ((List.mem_cons.mp h).resolve_left hne.symm)
    constructor
    · rw [upTo, if_neg (fun h => hne (Option.some.inj h)), heq, List.cons_append]
    · rw [upTo, if_neg hb, List.cons_append]
      exact List.cons_subset_cons b hsub

end Views

/-! Histories. -/

/-- The records that there are, their parents, the record shown first and the boundary. -/
structure Timeline (K : Type u) where
  listed : Set K
  parent : K → Option K
  head : Option K
  floor : Option K

section Histories
variable [DecidableEq K]

namespace Timeline

def Shown (t : Timeline K) : Set K :=
  {k | ∃ h line, t.head = some h ∧ Lineage t.parent h line ∧ k ∈ upTo t.floor line}

/-- A record is added, whose parent was there. -/
structure Grows (t t' : Timeline K) : Prop where
  listed : t.listed ⊆ t'.listed
  parent : ∀ k ∈ t.listed, t'.parent k = t.parent k
  added : ∀ k ∈ t'.listed, k ∉ t.listed → ∀ p, t'.parent k = some p → p ∈ t.listed
  head : t'.head = t.head
  floor : t'.floor = t.floor

omit [DecidableEq K] in
theorem Grows.refl (t : Timeline K) : t.Grows t :=
  ⟨Set.Subset.rfl, fun _ _ => rfl, fun _ hk hnew => absurd hk hnew, rfl, rfl⟩

def moved (t : Timeline K) (k : K) : Timeline K := { t with head := some k }

def bounded (t : Timeline K) (k : K) : Timeline K := { t with floor := some k }

/-- The line of a new head has the boundary on it, or none of these records. -/
def Anchored (t : Timeline K) (removed : Set K) (k : K) : Prop :=
  ∃ line, Lineage t.parent k line ∧
    ((∃ f, t.floor = some f ∧ f ∈ line) ∨ ∀ x ∈ line, x ∉ removed)

/-- Every line ends. -/
structure Grounded (t : Timeline K) : Prop where
  lines : ∀ k ∈ t.listed, ∃ line, Lineage t.parent k line ∧ ∀ x ∈ line, x ∈ t.listed
  head : ∀ k, t.head = some k → k ∈ t.listed

/-- The records taken out are those below a boundary. -/
structure Guarded (t : Timeline K) (removed : Set K) : Prop extends t.Grounded where
  known : removed ⊆ t.listed
  downward : ∀ k ∈ removed, ∀ line, Lineage t.parent k line → ∀ x ∈ line, x ∈ removed
  floor : ∀ f, t.floor = some f → f ∈ t.listed ∧ f ∉ removed
  below : ∀ f, t.floor = some f → ∀ rest, Lineage t.parent f (f :: rest) → ∀ x ∈ rest, x ∈ removed
  hidden : ∀ k ∈ removed, k ∉ t.Shown

variable {t t' : Timeline K} {removed : Set K} {k : K}

theorem shown_iff {h : K} {line : List K} (hhead : t.head = some h)
    (hline : Lineage t.parent h line) : k ∈ t.Shown ↔ k ∈ upTo t.floor line := by
  constructor
  · intro ⟨h', line', hhead', hline', hmem⟩
    rw [hhead] at hhead'
    cases hhead'
    rwa [hline.unique hline']
  · exact fun hmem => ⟨h, line, hhead, hline, hmem⟩

theorem Grounded.shown_listed (h : t.Grounded) (hk : k ∈ t.Shown) : k ∈ t.listed := by
  obtain ⟨top, line, hhead, hline, hmem⟩ := hk
  obtain ⟨line', hline', hlisted⟩ := h.lines top (h.head top hhead)
  rw [hline.unique hline'] at hmem
  exact hlisted k (mem_of_mem_upTo hmem)

omit [DecidableEq K] in
theorem Grows.lineage (g : t.Grows t') (h : t.Grounded) (hk : k ∈ t.listed)
    {line : List K} : Lineage t'.parent k line ↔ Lineage t.parent k line := by
  obtain ⟨own, hown, hlisted⟩ := h.lines k hk
  have hnew : Lineage t'.parent k own := Lineage.congr hown fun x hx => g.parent x (hlisted x hx)
  constructor
  · intro hline
    rwa [hline.unique hnew]
  · intro hline
    rwa [hline.unique hown]

theorem Grows.shown (g : t.Grows t') (h : t.Grounded) : t'.Shown = t.Shown := by
  ext x
  constructor
  · intro ⟨top, line, hhead, hline, hmem⟩
    rw [g.head] at hhead
    rw [g.floor] at hmem
    exact ⟨top, line, hhead, (g.lineage h (h.head top hhead)).mp hline, hmem⟩
  · intro ⟨top, line, hhead, hline, hmem⟩
    exact ⟨top, line, g.head.trans hhead, (g.lineage h (h.head top hhead)).mpr hline,
      by rwa [g.floor]⟩

omit [DecidableEq K] in
theorem Grounded.grow (h : t.Grounded) (g : t.Grows t') : t'.Grounded where
  lines := by
    intro x hx
    have hold : ∀ y ∈ t.listed, ∃ line, Lineage t'.parent y line ∧ ∀ z ∈ line, z ∈ t'.listed := by
      intro y hy
      obtain ⟨line, hline, hlisted⟩ := h.lines y hy
      exact ⟨line, (g.lineage h hy).mpr hline, fun z hz => g.listed (hlisted z hz)⟩
    by_cases hthere : x ∈ t.listed
    · exact hold x hthere
    cases hp : t'.parent x with
    | none => exact ⟨[x], .root hp, fun z hz => List.mem_singleton.mp hz ▸ hx⟩
    | some p =>
      obtain ⟨line, hline, hlisted⟩ := hold p (g.added x hx hthere p hp)
      refine ⟨x :: line, .step hp hline, fun z hz => ?_⟩
      rcases List.mem_cons.mp hz with rfl | hz
      · exact hx
      · exact hlisted z hz
  head := fun x hx => g.listed (h.head x (g.head ▸ hx))

omit [DecidableEq K] in
theorem Grounded.move (h : t.Grounded) (hk : k ∈ t.listed) : (t.moved k).Grounded :=
  ⟨h.lines, fun _ hx => Option.some.inj hx ▸ hk⟩

omit [DecidableEq K] in
theorem Grounded.bound (h : t.Grounded) (k : K) : (t.bounded k).Grounded := ⟨h.lines, h.head⟩

theorem Guarded.grow (h : t.Guarded removed) (g : t.Grows t') : t'.Guarded removed where
  toGrounded := h.toGrounded.grow g
  known := h.known.trans g.listed
  downward := fun x hx line hline =>
    h.downward x hx line ((g.lineage h.toGrounded (h.known hx)).mp hline)
  floor := fun f hf => ⟨g.listed (h.floor f (g.floor ▸ hf)).1, (h.floor f (g.floor ▸ hf)).2⟩
  below := fun f hf rest hrest => h.below f (g.floor ▸ hf) rest
    ((g.lineage h.toGrounded (h.floor f (g.floor ▸ hf)).1).mp hrest)
  hidden := by
    rw [g.shown h.toGrounded]
    exact h.hidden

theorem Guarded.move (h : t.Guarded removed) (hk : k ∈ t.listed) (ha : t.Anchored removed k) :
    (t.moved k).Guarded removed where
  toGrounded := h.toGrounded.move hk
  known := h.known
  downward := h.downward
  floor := h.floor
  below := h.below
  hidden := by
    intro x hx hshown
    obtain ⟨line, hline, hanchor⟩ := ha
    rw [shown_iff (t := t.moved k) rfl hline] at hshown
    rcases hanchor with ⟨f, hf, hmem⟩ | hclear
    · rcases upTo_cases t.floor line with ⟨hnot, -⟩ | ⟨f', before, after, hf', rfl, heq⟩
      · exact hnot f hf hmem
      -- a removed record above the boundary would have the boundary on its line
      have hfloor := (h.floor f' hf').2
      change x ∈ upTo t.floor _ at hshown
      rw [heq] at hshown
      rcases List.mem_append.mp hshown with hshown | hshown
      · obtain ⟨above, between, rfl⟩ := List.append_of_mem hshown
        rw [List.append_assoc, List.cons_append] at hline
        exact hfloor (h.downward x hx _ hline.drop f' (by simp))
      · exact hfloor (List.mem_singleton.mp hshown ▸ hx)
    · exact hclear x (mem_of_mem_upTo hshown) hx

/-- A head that is not anchored shows again what was taken out. -/
theorem Guarded.move_shows (h : t.Guarded removed) (hk : k ∈ t.listed)
    (ha : ¬t.Anchored removed k) : ∃ x ∈ removed, x ∈ (t.moved k).Shown := by
  obtain ⟨line, hline, -⟩ := h.lines k hk
  have hno : ¬((∃ f, t.floor = some f ∧ f ∈ line) ∨ ∀ x ∈ line, x ∉ removed) :=
    fun hanchor => ha ⟨line, hline, hanchor⟩
  rw [not_or] at hno
  obtain ⟨hfloor, hremoved⟩ := hno
  push Not at hfloor hremoved
  obtain ⟨x, hx, hgone⟩ := hremoved
  refine ⟨x, hgone, (shown_iff (t := t.moved k) rfl hline).mpr ?_⟩
  change x ∈ upTo t.floor line
  rcases upTo_cases t.floor line with ⟨-, heq⟩ | ⟨f, before, after, hf, rfl, -⟩
  · rwa [heq]
  · exact absurd (List.mem_append_right _ List.mem_cons_self) (hfloor f hf)

theorem Guarded.retain (h : t.Guarded removed) (hk : k ∈ t.Shown) :
    (t.bounded k).Guarded (removed ∪ (t.Shown \ (t.bounded k).Shown)) := by
  obtain ⟨top, line, hhead, hline, hmem⟩ := id hk
  obtain ⟨above, rest, rfl, hrest⟩ := hline.of_mem (mem_of_mem_upTo hmem)
  obtain ⟨hcut, hsub⟩ := upTo_of_mem hline.nodup hmem
  have hnew : ∀ {x : K}, x ∈ (t.bounded k).Shown ↔ x ∈ above ++ [k] := by
    intro x
    rw [shown_iff (t := t.bounded k) hhead hline, ← hcut]
    rfl
  have hold : ∀ {x : K}, x ∈ t.Shown ↔ x ∈ upTo t.floor (above ++ k :: rest) :=
    shown_iff hhead hline
  have hstays : (t.bounded k).Shown ⊆ t.Shown := fun x hx => hold.mpr (hsub (hnew.mp hx))
  have hapart : ∀ x ∈ rest, x ∉ above ++ [k] := by
    intro x hx habove
    have hnodup := hline.nodup
    rw [← List.singleton_append, ← List.append_assoc] at hnodup
    exact List.nodup_append.mp hnodup |>.2.2 x habove x hx rfl
  have hbelow : ∀ x ∈ rest, x ∈ removed ∪ (t.Shown \ (t.bounded k).Shown) := by
    intro x hx
    by_cases hshown : x ∈ t.Shown
    · exact Or.inr ⟨hshown, fun hx' => hapart x hx (hnew.mp hx')⟩
    apply Or.inl
    rw [hold] at hshown
    rcases upTo_cases t.floor (above ++ k :: rest) with ⟨-, heq⟩ | ⟨f, before, after, hf, hsplit, heq⟩
    · rw [heq] at hshown
      exact absurd (List.mem_append_right _ (List.mem_cons_of_mem _ hx)) hshown
    · rw [heq] at hshown
      have hx' : x ∈ before ++ [f] ++ after := by
        rw [List.append_assoc, List.singleton_append, ← hsplit]
        exact List.mem_append_right _ (List.mem_cons_of_mem _ hx)
      rw [hsplit] at hline
      exact h.below f hf after hline.drop x ((List.mem_append.mp hx').resolve_left hshown)
  refine ⟨h.toGrounded.bound k, ?_, ?_, ?_, ?_, ?_⟩
  · exact Set.union_subset h.known fun x hx => h.toGrounded.shown_listed hx.1
  · intro x hx own hown y hy
    rcases hx with hx | ⟨hshown, hgone⟩
    · exact Or.inl (h.downward x hx own hown y hy)
    · have hx : x ∈ rest := by
        have hx := mem_of_mem_upTo (hold.mp hshown)
        rw [← List.singleton_append, ← List.append_assoc] at hx
        exact (List.mem_append.mp hx).resolve_left fun hx => hgone (hnew.mpr hx)
      obtain ⟨between, after, rfl⟩ := List.append_of_mem hx
      rw [← List.cons_append] at hrest
      rw [hown.unique hrest.drop] at hy
      exact hbelow y (List.mem_append_right _ hy)
  · intro f hf
    obtain rfl := Option.some.inj hf
    refine ⟨h.toGrounded.shown_listed hk, ?_⟩
    rintro (hremoved | hgone)
    · exact h.hidden k hremoved hk
    · exact hgone.2 (hnew.mpr (by simp))
  · intro f hf own hown
    obtain rfl := Option.some.inj hf
    rw [(List.cons.inj (hown.unique hrest)).2]
    exact hbelow
  · rintro x (hx | hx) hshown
    · exact h.hidden x hx (hstays hshown)
    · exact hx.2 hshown

end Timeline

end Histories

end Boundary
