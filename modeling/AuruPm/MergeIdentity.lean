import AuruPm.MergeLoss
import Mathlib.Data.List.Perm.Basic

/-!
# Identity laws of the merge

Merging a version with itself, or with the unchanged ancestor, is clean and gives the
version's content back. The elements of an id-keyed array come out in ancestor order, by the
design of `merge_arrays_by_id`, so its content is a collection and not a sequence. Nothing is
said of a positional array that the version cuts short.
-/

namespace AuruPm

set_option autoImplicit false

open SortedAssoc Value

/-- Both sides made the same change, or one side made it and the other none. -/
def Echo {A : Type} (a l r x : A) : Prop := (l = x ∧ r = x) ∨ (l = x ∧ r = a) ∨ (l = a ∧ r = x)

theorem Echo.map {A B : Type} {a l r x : A} (f : A → B) (h : Echo a l r x) :
    Echo (f a) (f l) (f r) (f x) := by
  rcases h with ⟨rfl, rfl⟩ | ⟨rfl, rfl⟩ | ⟨rfl, rfl⟩
  · exact Or.inl ⟨rfl, rfl⟩
  · exact Or.inr (Or.inl ⟨rfl, rfl⟩)
  · exact Or.inr (Or.inr ⟨rfl, rfl⟩)

/-- Objects compared as maps, id-keyed arrays as collections, other arrays as sequences. -/
inductive SameContent : Value → Value → Prop
  | refl (v : Value) : SameContent v v
  | object {fs gs : List (String × Value)} (hkeys : fs.map Prod.fst = gs.map Prod.fst)
      (h : List.Forall₂ SameContent (fs.map Prod.snd) (gs.map Prod.snd)) :
      SameContent (.object fs) (.object gs)
  | array {xs ys : List Value} (h : List.Forall₂ SameContent xs ys) :
      SameContent (.array xs) (.array ys)
  | elements {xs ys zs : List Value} (hid : allHaveId zs = true) (hperm : ys.Perm zs)
      (h : List.Forall₂ SameContent xs ys) : SameContent (.array xs) (.array zs)

/-- At no positional array of the walk is a side shorter than the ancestor. -/
def Uncut (a l r : Value) : Prop :=
  ∀ path xa xl xr, Visits a l r path (.array xa) (.array xl) (.array xr) →
    idKeyed xa xl xr = false → xa.length ≤ xl.length ∧ xa.length ≤ xr.length

/-- The ids shared with the ancestor come first, in the ancestor's order. -/
def AncestorFirst (xa x : List Value) : Prop :=
  x.map idOf = (xa.map idOf).filter (· ∈ x.map idOf) ++ (x.map idOf).filter (· ∉ xa.map idOf)

/-- At every id-keyed array of the walk both sides list the ancestor's elements first. -/
def InOrder (a l r : Value) : Prop :=
  ∀ path xa xl xr, Visits a l r path (.array xa) (.array xl) (.array xr) →
    idKeyed xa xl xr = true → AncestorFirst xa xl ∧ AncestorFirst xa xr

theorem Visits.trans {a l r a₁ l₁ r₁ a₂ l₂ r₂ : Value} {p q : List PathStep}
    (h : Visits a l r p a₁ l₁ r₁) (h' : Visits a₁ l₁ r₁ q a₂ l₂ r₂) :
    Visits a l r (p ++ q) a₂ l₂ r₂ := by
  induction h with
  | here => exact h'
  | field ha hl hr hlc hrc _ ih => exact .field ha hl hr hlc hrc (ih h')
  | element hid hl hr _ ih => exact .element hid hl hr (ih h')
  | index hid hi _ ih => exact .index hid hi (ih h')

theorem Uncut.of_visit {a l r a' l' r' : Value} {p : List PathStep} (h : Uncut a l r)
    (hv : Visits a l r p a' l' r') : Uncut a' l' r' :=
  fun q xa xl xr hq hid => h (p ++ q) xa xl xr (hv.trans hq) hid

theorem InOrder.of_visit {a l r a' l' r' : Value} {p : List PathStep} (h : InOrder a l r)
    (hv : Visits a l r p a' l' r') : InOrder a' l' r' :=
  fun q xa xl xr hq hid => h (p ++ q) xa xl xr (hv.trans hq) hid

theorem tidy_null : Tidy .null := ⟨rfl, rfl⟩

theorem Tidy.padded {xs : List Value} (h : Tidy (.array xs)) (i : Nat) : Tidy (padded xs i) := by
  unfold AuruPm.padded
  cases hx : xs[i]? with
  | none => exact tidy_null
  | some x => exact h.element (List.mem_of_getElem? hx)

/-- Elements with one id echo when their arrays do. -/
theorem Echo.element {xa xl xr x : List Value} (h : Echo xa xl xr x)
    (hd : (xa.map idOf).Nodup) {av : Value} (hav : av ∈ xa) :
    Echo (some av) (byId xl (idOf av)) (byId xr (idOf av)) (byId x (idOf av)) := by
  have hself := byId_of_mem hd hav
  have hmap := h.map fun arr => byId arr (idOf av)
  rwa [hself] at hmap

theorem Echo.of_some {A : Type} {a l r : A} {x : Option A}
    (h : Echo (some a) (some l) (some r) x) : ∃ y, x = some y ∧ Echo a l r y := by
  rcases h with ⟨rfl, h⟩ | ⟨rfl, h⟩ | ⟨h, rfl⟩
  · exact ⟨l, rfl, Or.inl ⟨rfl, Option.some.inj h⟩⟩
  · exact ⟨l, rfl, Or.inr (Or.inl ⟨rfl, Option.some.inj h⟩)⟩
  · exact ⟨r, rfl, Or.inr (Or.inr ⟨Option.some.inj h, rfl⟩)⟩

theorem Echo.fields {a l r : List (String × Value)} {x : Value}
    (h : Echo (.object a) (.object l) (.object r) x) : ∃ fs, x = .object fs ∧ Echo a l r fs := by
  rcases h with ⟨rfl, h⟩ | ⟨rfl, h⟩ | ⟨h, rfl⟩
  · exact ⟨l, rfl, Or.inl ⟨rfl, Value.object.inj h⟩⟩
  · exact ⟨l, rfl, Or.inr (Or.inl ⟨rfl, Value.object.inj h⟩)⟩
  · exact ⟨r, rfl, Or.inr (Or.inr ⟨Value.object.inj h, rfl⟩)⟩

theorem Echo.elems {a l r : List Value} {x : Value}
    (h : Echo (.array a) (.array l) (.array r) x) : ∃ xs, x = .array xs ∧ Echo a l r xs := by
  rcases h with ⟨rfl, h⟩ | ⟨rfl, h⟩ | ⟨h, rfl⟩
  · exact ⟨l, rfl, Or.inl ⟨rfl, Value.array.inj h⟩⟩
  · exact ⟨l, rfl, Or.inr (Or.inl ⟨rfl, Value.array.inj h⟩)⟩
  · exact ⟨r, rfl, Or.inr (Or.inr ⟨Value.array.inj h, rfl⟩)⟩

theorem Echo.visit {a l r a' l' r' x : Value} {p : List PathStep} (ha : Tidy a)
    (h : Visits a l r p a' l' r') (he : Echo a l r x) : ∃ x', Echo a' l' r' x' := by
  induction h generalizing x with
  | here => exact ⟨x, he⟩
  | @field fa fl fr k _ _ _ _ _ _ _ hka hkl hkr _ _ _ ih =>
    obtain ⟨fs, rfl, hfs⟩ := he.fields
    have hget := hfs.map (get? · k)
    rw [hka, hkl, hkr] at hget
    obtain ⟨y, _, hy⟩ := hget.of_some
    exact ih (ha.field hka) hy
  | @element xl xr before after av _ _ _ _ _ _ hid hl hr _ ih =>
    obtain ⟨xs, rfl, hxs⟩ := he.elems
    have hmem : av ∈ before ++ av :: after := by simp
    have hel := hxs.element (ha.nodup (idKeyed_iff.mp hid).1) hmem
    rw [hl, hr] at hel
    obtain ⟨y, _, hy⟩ := hel.of_some
    exact ih (ha.element hmem) hy
  | @index _ _ _ i _ _ _ _ _ _ _ ih =>
    obtain ⟨xs, rfl, hxs⟩ := he.elems
    exact ih (ha.padded i) (hxs.map (padded · i))

/-- No node clashes when the sides echo, so the merge is clean. -/
theorem Echo.clean {a l r x : Value} (ha : Tidy a) (h : Echo a l r x) : clashes a l r = [] := by
  rw [List.eq_nil_iff_forall_not_mem]
  intro c hc
  obtain ⟨p, a', l', r', d, hv, hd, rfl⟩ := mem_clashes_iff.mp hc
  obtain ⟨x', hx'⟩ := h.visit ha hv
  cases hd with
  | leaf _ hl hr hlr =>
    rcases hx' with ⟨rfl, h⟩ | ⟨_, h⟩ | ⟨h, _⟩
    · exact hlr h.symm
    · exact hr h
    · exact hl h
  | @added fa fl fr k lv rv ka kl kr hlr =>
    obtain ⟨fs, _, hfs⟩ := hx'.fields
    have hget := hfs.map (get? · k)
    rw [ka, kl, kr] at hget
    rcases hget with ⟨h, h'⟩ | ⟨_, h⟩ | ⟨h, _⟩
    · exact hlr (Option.some.inj (h.trans h'.symm))
    · cases h
    · cases h

/-- The merge gives the version's content, and the version itself when the order agrees. -/
def GivesBack (a l r x : Value) : Prop :=
  SameContent (merged a l r) x ∧ (InOrder a l r → merged a l r = x)

theorem GivesBack.of_eq {a l r x : Value} (h : merged a l r = x) : GivesBack a l r x :=
  ⟨h ▸ SameContent.refl _, fun _ => h⟩

theorem Echo.leaf {a l r x : Value} (h : Echo a l r x) (hleaf : IsLeaf a l r) :
    GivesBack a l r x := by
  apply GivesBack.of_eq
  rw [merged_leaf hleaf]
  rcases h with ⟨rfl, rfl⟩ | ⟨rfl, rfl⟩ | ⟨rfl, rfl⟩
  · split <;> rfl
  · split
    · rename_i h
      exact h.symm
    · rfl
  · rw [if_pos rfl]

section Objects
variable {fa fl fr fx : List (String × Value)}

/-- A key is either taken whole or walked to, and then its own values echo. -/
theorem Echo.field (h : Echo fa fl fr fx) (k : String) :
    mergedAt (get? fa k) (get? fl k) (get? fr k) = get? fx k ∨
      ∃ av lv rv xv, Visits (.object fa) (.object fl) (.object fr) [.key k] av lv rv ∧
        get? fa k = some av ∧ get? fx k = some xv ∧ Echo av lv rv xv ∧
        mergedAt (get? fa k) (get? fl k) (get? fr k) = some (merged av lv rv) := by
  rcases h with ⟨rfl, rfl⟩ | ⟨rfl, rfl⟩ | ⟨rfl, rfl⟩
  · cases ha : get? fa k with
    | none => cases get? fr k <;> simp
    | some av =>
      cases hx : get? fr k with
      | none => simp
      | some xv =>
        by_cases heq : xv = av
        · subst heq
          simp
        · exact Or.inr ⟨av, xv, xv, xv, .field ha hx hx heq heq (.here _ _ _), rfl, rfl,
            Or.inl ⟨rfl, rfl⟩, mergedAt_changed heq heq⟩
  · simp
  · simp

theorem Echo.object (h : Echo fa fl fr fx) (hx : Sorted fx)
    (ih : ∀ k av lv rv xv, get? fa k = some av → get? fx k = some xv →
      Visits (.object fa) (.object fl) (.object fr) [.key k] av lv rv → Echo av lv rv xv →
      GivesBack av lv rv xv) :
    GivesBack (.object fa) (.object fl) (.object fr) (.object fx) := by
  unfold GivesBack
  rw [merged_object]
  constructor
  · have hrel := forall₂_of_get? (R := SameContent) (sorted_mergedFields fa fl fr) hx fun k => by
      rw [get?_mergedFields]
      rcases h.field k with he | ⟨av, lv, rv, xv, hv, ha, hxv, hecho, hm⟩
      · rw [he]
        cases get? fx k with
        | none => exact .none
        | some v => exact .some (.refl v)
      · rw [hm, hxv]
        exact .some (ih k av lv rv xv ha hxv hv hecho).1
    refine .object ?_ ?_
    · have heq := hrel.imp (fun _ _ he => he.1)
      rw [← List.forall₂_eq_eq_eq, List.forall₂_map_left_iff, List.forall₂_map_right_iff]
      exact heq
    · rw [List.forall₂_map_left_iff, List.forall₂_map_right_iff]
      exact hrel.imp fun _ _ he => he.2
  · intro horder
    refine congrArg _ (SortedAssoc.ext (sorted_mergedFields _ _ _) hx fun k => ?_)
    rw [get?_mergedFields]
    rcases h.field k with he | ⟨av, lv, rv, xv, hv, ha, hxv, hecho, hm⟩
    · exact he
    · rw [hm, hxv]
      exact congrArg some ((ih k av lv rv xv ha hxv hv hecho).2 (horder.of_visit hv))

end Objects

section Elements
variable {xa xl xr xs : List Value}

theorem Echo.additions_eq (h : Echo xa xl xr xs) :
    additions xa xl xr = xs.filter fun v => (byId xa (idOf v)).isNone := by
  have hself : ∀ ys : List Value,
      ys.filter (fun v => (byId ys (idOf v)).isNone) = [] := by
    intro ys
    apply List.filter_eq_nil_iff.mpr
    intro v hv
    simpa [Option.isSome_iff_ne_none] using byId_isSome_of_mem hv
  have hself' : ∀ ys zs : List Value,
      zs.filter (fun v => (byId ys (idOf v)).isNone && (byId zs (idOf v)).isNone) = [] := by
    intro ys zs
    apply List.filter_eq_nil_iff.mpr
    intro v hv
    have := byId_isSome_of_mem hv
    cases hb : byId zs (idOf v) <;> simp_all
  unfold additions
  rcases h with ⟨rfl, rfl⟩ | ⟨rfl, rfl⟩ | ⟨rfl, rfl⟩
  · rw [hself', List.append_nil]
  · have hnone : xr.filter (fun v => (byId xr (idOf v)).isNone && (byId xl (idOf v)).isNone) = [] := by
      apply List.filter_eq_nil_iff.mpr
      intro v hv
      have := byId_isSome_of_mem hv
      cases hb : byId xr (idOf v) <;> simp_all
    rw [hnone, List.append_nil]
  · rw [hself, List.nil_append]
    exact List.filter_congr fun v _ => by simp

/-- The version's elements, those shared with the ancestor first. -/
def ancestorFirst (xa xs : List Value) : List Value :=
  (xa.filterMap fun av => byId xs (idOf av)) ++ xs.filter fun v => (byId xa (idOf v)).isNone

theorem map_idOf_shared (xa xs : List Value) :
    (xa.filterMap fun av => byId xs (idOf av)).map idOf =
      (xa.map idOf).filter (· ∈ xs.map idOf) := by
  induction xa with
  | nil => rfl
  | cons av rest ih =>
    rw [List.filterMap_cons, List.map_cons]
    cases hb : byId xs (idOf av) with
    | none =>
      have hnot : idOf av ∉ xs.map idOf := by
        intro hmem
        obtain ⟨v, hv, he⟩ := List.mem_map.mp hmem
        exact byId_eq_none_iff.mp hb v hv he
      rw [List.filter_cons_of_neg (by simpa using hnot)]
      exact ih
    | some v =>
      obtain ⟨hv, he⟩ := byId_mem hb
      rw [List.filter_cons_of_pos (by simpa using ⟨v, hv, he⟩), List.map_cons, he]
      exact congrArg _ ih

theorem map_idOf_ancestorFirst (xa xs : List Value) :
    (ancestorFirst xa xs).map idOf =
      (xa.map idOf).filter (· ∈ xs.map idOf) ++ (xs.map idOf).filter (· ∉ xa.map idOf) := by
  rw [ancestorFirst, List.map_append]
  refine congrArg₂ _ (map_idOf_shared xa xs) ?_
  rw [List.filter_map]
  refine congrArg _ (List.filter_congr fun v _ => ?_)
  cases hb : byId xa (idOf v) with
  | none =>
    have := byId_eq_none_iff.mp hb
    simpa using this
  | some w =>
    obtain ⟨hw, he⟩ := byId_mem hb
    simpa using ⟨w, hw, he⟩

theorem mem_ancestorFirst (hd : (xs.map idOf).Nodup) {v : Value} :
    v ∈ ancestorFirst xa xs ↔ v ∈ xs := by
  simp only [ancestorFirst, List.mem_append, List.mem_filterMap, List.mem_filter]
  constructor
  · rintro (⟨av, _, hb⟩ | ⟨hv, _⟩)
    · exact (byId_mem hb).1
    · exact hv
  · intro hv
    cases hb : byId xa (idOf v) with
    | none => exact Or.inr ⟨hv, rfl⟩
    | some av =>
      obtain ⟨hav, he⟩ := byId_mem hb
      exact Or.inl ⟨av, hav, by rw [he]; exact byId_of_mem hd hv⟩

theorem nodup_ancestorFirst (ha : (xa.map idOf).Nodup) (hd : (xs.map idOf).Nodup) :
    (ancestorFirst xa xs).Nodup := by
  apply List.Nodup.of_map idOf
  rw [map_idOf_ancestorFirst]
  refine List.nodup_append.mpr ⟨ha.filter _, hd.filter _, ?_⟩
  rintro x hx y hy rfl
  have hin := (List.mem_filter.mp hx).1
  have hout := (List.mem_filter.mp hy).2
  simp only [decide_not, Bool.not_eq_true', decide_eq_false_iff_not] at hout
  exact hout hin

theorem perm_ancestorFirst (ha : (xa.map idOf).Nodup) (hd : (xs.map idOf).Nodup) :
    (ancestorFirst xa xs).Perm xs :=
  (List.perm_ext_iff_of_nodup (nodup_ancestorFirst ha hd) (hd.of_map idOf)).mpr
    fun _ => mem_ancestorFirst hd

/-- Two lists of elements of one array are equal when their ids are. -/
theorem eq_of_map_idOf {ys zs : List Value} (hd : (xs.map idOf).Nodup) (hy : ∀ v ∈ ys, v ∈ xs)
    (hz : ∀ v ∈ zs, v ∈ xs) (h : ys.map idOf = zs.map idOf) : ys = zs := by
  induction ys generalizing zs with
  | nil => exact (List.map_eq_nil_iff.mp h.symm).symm
  | cons y ys ih =>
    cases zs with
    | nil => simp at h
    | cons z zs =>
      obtain ⟨hid, hrest⟩ := List.cons.inj h
      have hyz : y = z := List.inj_on_of_nodup_map hd (hy y List.mem_cons_self)
        (hz z List.mem_cons_self) hid
      rw [hyz, ih (fun v hv => hy v (List.mem_cons_of_mem _ hv))
        (fun v hv => hz v (List.mem_cons_of_mem _ hv)) hrest]

theorem ancestorFirst_eq (hd : (xs.map idOf).Nodup) (h : AncestorFirst xa xs) :
    ancestorFirst xa xs = xs :=
  eq_of_map_idOf hd (fun _ hv => (mem_ancestorFirst hd).mp hv) (fun _ hv => hv)
    ((map_idOf_ancestorFirst xa xs).trans h.symm)

theorem forall₂_filterMap {A B C : Type} {R : B → C → Prop} {f : A → Option B} {g : A → Option C}
    {as : List A} (h : ∀ a ∈ as, Option.Rel R (f a) (g a)) :
    List.Forall₂ R (as.filterMap f) (as.filterMap g) := by
  induction as with
  | nil => exact .nil
  | cons a as ih =>
    have hrest := ih fun b hb => h b (List.mem_cons_of_mem a hb)
    have ha := h a List.mem_cons_self
    simp only [List.filterMap_cons]
    cases hf : f a <;> cases hg : g a <;> rw [hf, hg] at ha
    · exact hrest
    · cases ha
    · cases ha
    · cases ha with
      | some hr => exact .cons hr hrest

/-- An ancestor element is gone from the version, or walked to with values that echo. -/
theorem Echo.mergedElement {av : Value} {l r x : Option Value} (h : Echo (some av) l r x) :
    (mergedElement av l r = none ∧ x = none) ∨
      ∃ lv rv xv, l = some lv ∧ r = some rv ∧ x = some xv ∧ Echo av lv rv xv := by
  rcases h with ⟨rfl, rfl⟩ | ⟨rfl, rfl⟩ | ⟨rfl, rfl⟩
  · cases r with
    | none => exact Or.inl ⟨rfl, rfl⟩
    | some xv => exact Or.inr ⟨xv, xv, xv, rfl, rfl, rfl, Or.inl ⟨rfl, rfl⟩⟩
  · cases l with
    | none => exact Or.inl ⟨by simp [AuruPm.mergedElement], rfl⟩
    | some xv => exact Or.inr ⟨xv, av, xv, rfl, rfl, rfl, Or.inr (Or.inl ⟨rfl, rfl⟩)⟩
  · cases r with
    | none => exact Or.inl ⟨by simp [AuruPm.mergedElement], rfl⟩
    | some xv => exact Or.inr ⟨av, xv, xv, rfl, rfl, rfl, Or.inr (Or.inr ⟨rfl, rfl⟩)⟩

theorem Echo.allHaveId (h : Echo xa xl xr xs) (hid : idKeyed xa xl xr = true) :
    allHaveId xs = true := by
  obtain ⟨_, hl, hr⟩ := idKeyed_iff.mp hid
  rcases h with ⟨rfl, _⟩ | ⟨rfl, _⟩ | ⟨_, rfl⟩
  · exact hl
  · exact hl
  · exact hr

theorem Echo.elements (h : Echo xa xl xr xs) (hid : idKeyed xa xl xr = true)
    (ha : (xa.map idOf).Nodup) (hd : (xs.map idOf).Nodup)
    (ih : ∀ av ∈ xa, ∀ step lv rv xv, xv ∈ xs →
      Visits (.array xa) (.array xl) (.array xr) [step] av lv rv → Echo av lv rv xv →
      GivesBack av lv rv xv) :
    GivesBack (.array xa) (.array xl) (.array xr) (.array xs) := by
  have hshared : ∀ av ∈ xa,
      (AuruPm.mergedElement av (byId xl (idOf av)) (byId xr (idOf av)) = none ∧
        byId xs (idOf av) = none) ∨
      ∃ m xv, AuruPm.mergedElement av (byId xl (idOf av)) (byId xr (idOf av)) = some m ∧
        byId xs (idOf av) = some xv ∧ SameContent m xv ∧
        (InOrder (.array xa) (.array xl) (.array xr) → m = xv) := by
    intro av hav
    rcases (h.element ha hav).mergedElement with hgone | ⟨lv, rv, xv, hl, hr, hx, hecho⟩
    · exact Or.inl hgone
    · obtain ⟨before, after, rfl⟩ := List.append_of_mem hav
      have hv := Visits.element hid hl hr (.here _ _ _)
      have hback := ih av hav _ lv rv xv (byId_mem hx).1 hv hecho
      refine Or.inr ⟨merged av lv rv, xv, by rw [hl, hr]; rfl, hx, hback.1, ?_⟩
      exact fun horder => hback.2 (horder.of_visit hv)
  unfold GivesBack
  rw [merged_elements hid, h.additions_eq]
  constructor
  · refine .elements (h.allHaveId hid) (perm_ancestorFirst ha hd) ?_
    refine List.rel_append (forall₂_filterMap fun av hav => ?_)
      (List.forall₂_same.mpr fun v _ => .refl v)
    rcases hshared av hav with ⟨hm, hx⟩ | ⟨m, xv, hm, hx, hsame, _⟩
    · rw [hm, hx]
      exact .none
    · rw [hm, hx]
      exact .some hsame
  · intro horder
    obtain ⟨hl, hr⟩ := horder [] _ _ _ (.here _ _ _) hid
    have hfirst : AncestorFirst xa xs := by
      rcases h with ⟨rfl, _⟩ | ⟨rfl, _⟩ | ⟨_, rfl⟩
      · exact hl
      · exact hl
      · exact hr
    refine congrArg _ (Eq.trans ?_ (ancestorFirst_eq hd hfirst))
    refine congrArg (· ++ _) (List.filterMap_congr fun av hav => ?_)
    rcases hshared av hav with ⟨hm, hx⟩ | ⟨m, xv, hm, hx, _, heq⟩
    · rw [hm, hx]
    · rw [hm, hx, heq horder]

theorem map_padded (xs : List Value) : (List.range xs.length).map (padded xs) = xs := by
  apply List.ext_getElem
  · simp
  · intro i h₁ h₂
    simp [padded, h₂]

theorem Echo.indices (h : Echo xa xl xr xs) (hid : idKeyed xa xl xr = false)
    (hcut : xa.length ≤ xl.length ∧ xa.length ≤ xr.length)
    (ih : ∀ i < xs.length, Visits (.array xa) (.array xl) (.array xr) [.index i]
        (padded xa i) (padded xl i) (padded xr i) →
      Echo (padded xa i) (padded xl i) (padded xr i) (padded xs i) →
      GivesBack (padded xa i) (padded xl i) (padded xr i) (padded xs i)) :
    GivesBack (.array xa) (.array xl) (.array xr) (.array xs) := by
  have hlen : paddedLength xa xl xr = xs.length := by
    unfold paddedLength
    rcases h with ⟨rfl, rfl⟩ | ⟨rfl, rfl⟩ | ⟨rfl, rfl⟩ <;> omega
  have hback : ∀ i < xs.length,
      SameContent (merged (padded xa i) (padded xl i) (padded xr i)) (padded xs i) ∧
      (InOrder (.array xa) (.array xl) (.array xr) →
        merged (padded xa i) (padded xl i) (padded xr i) = padded xs i) := by
    intro i hi
    have hv := Visits.index hid (hlen ▸ hi) (.here _ _ _)
    have hone := ih i hi hv (h.map (padded · i))
    exact ⟨hone.1, fun horder => hone.2 (horder.of_visit hv)⟩
  unfold GivesBack
  rw [merged_indices hid, hlen]
  constructor
  · refine .array ?_
    have hxs := map_padded xs
    rw [← hxs, List.forall₂_map_left_iff, List.forall₂_map_right_iff, hxs]
    exact List.forall₂_same.mpr fun i hi => (hback i (List.mem_range.mp hi)).1
  · intro horder
    refine congrArg _ (Eq.trans ?_ (map_padded xs))
    exact List.map_congr_left fun i hi => (hback i (List.mem_range.mp hi)).2 horder

end Elements

theorem Echo.givesBack {a l r x : Value} (ha : Tidy a) (hx : Tidy x) (h : Echo a l r x)
    (hcut : Uncut a l r) : GivesBack a l r x := by
  by_cases hleaf : IsLeaf a l r
  · exact h.leaf hleaf
  induction a using Value.induct generalizing l r x with
  | null => exact absurd (by simp [IsLeaf, isObject, isArray]) hleaf
  | bool => exact absurd (by simp [IsLeaf, isObject, isArray]) hleaf
  | number => exact absurd (by simp [IsLeaf, isObject, isArray]) hleaf
  | string => exact absurd (by simp [IsLeaf, isObject, isArray]) hleaf
  | object fa ih =>
    obtain ⟨fl, fr, rfl, rfl⟩ := objects_of_not_leaf hleaf
    obtain ⟨fx, rfl, hfx⟩ := h.fields
    apply hfx.object hx.sorted
    intro k av lv rv xv hav hxv hv hecho
    by_cases hl : IsLeaf av lv rv
    · exact hecho.leaf hl
    · exact ih (k, av) (mem_of_get? hav) (ha.field hav) (hx.field hxv) hecho
        (hcut.of_visit hv) hl
  | array xa ih =>
    obtain ⟨xl, xr, rfl, rfl⟩ := arrays_of_not_leaf hleaf
    obtain ⟨xs, rfl, hxs⟩ := h.elems
    cases hid : idKeyed xa xl xr with
    | true =>
      have hda := ha.nodup (idKeyed_iff.mp hid).1
      have hdx := hx.nodup (hxs.allHaveId hid)
      apply hxs.elements hid hda hdx
      intro av hav step lv rv xv hxv hv hecho
      by_cases hl : IsLeaf av lv rv
      · exact hecho.leaf hl
      · exact ih av hav (ha.element hav) (hx.element hxv) hecho (hcut.of_visit hv) hl
    | false =>
      apply hxs.indices hid (hcut [] _ _ _ (.here _ _ _) hid)
      intro i hi hv hecho
      by_cases hl : IsLeaf (padded xa i) (padded xl i) (padded xr i)
      · exact hecho.leaf hl
      · have hmem : padded xa i ∈ xa := by
          cases hx : xa[i]? with
          | none => exact absurd (by simp [padded, hx, IsLeaf, isObject, isArray]) hl
          | some v => simpa [padded, hx] using List.mem_of_getElem? hx
        exact ih _ hmem (ha.padded i) (hx.padded i) hecho (hcut.of_visit hv) hl

/-- Merging these gives a clean outcome with the content of `x`, and `x` itself when its
id-keyed arrays list the ancestor's elements first. -/
def IdentityLaw (a l r x : Value) : Prop :=
  ∃ m, merge3 a l r = .clean m ∧
    (Uncut a l r → SameContent m x ∧ (InOrder a l r → m = x))

theorem Echo.identityLaw {a l r x : Value} (ha : Tidy a) (hx : Tidy x) (h : Echo a l r x) :
    IdentityLaw a l r x :=
  ⟨merged a l r, merge3_clean_iff.mpr ⟨h.clean ha, rfl⟩, fun hcut => h.givesBack ha hx hcut⟩

def trackList (ids : List String) : Json where
  value := .array (ids.map fun x => .object [("id", .string x)])
  wf := by
    simp only [wf_array, List.mem_map]
    rintro _ ⟨x, _, rfl⟩
    rw [wf_object]
    exact ⟨List.pairwise_singleton _ _, fun e he => by rw [List.mem_singleton.mp he]; rfl⟩

/-- One track listed twice, muted and not. -/
def trackTwice : Value :=
  .array [.object [("id", .string "a"), ("mute", .bool true)],
    .object [("id", .string "a"), ("mute", .bool false)]]

end AuruPm
