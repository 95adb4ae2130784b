import Mathlib.Order.Lattice
import Mathlib.Data.List.Pairwise
import Mathlib.Data.List.Forall2
import Mathlib.Data.Option.Basic
import Mathlib.Tactic.Common

/-!
# Association lists sorted by key

The data of an ordered map: a list of entries with strictly increasing keys. Lookup
does not use the order, so most lemmas hold of every list. Only extensionality and the
ordered insertion need sortedness.
-/

namespace SortedAssoc

set_option autoImplicit false

universe u v w

variable {K : Type u} {V : Type v} {W : Type w}

section Lookup
variable [DecidableEq K]

/-- Value of the first entry with this key. -/
def get? : List (K × V) → K → Option V
  | [], _ => none
  | (k', v) :: m, k => if k = k' then some v else get? m k

@[simp] theorem get?_nil (k : K) : get? ([] : List (K × V)) k = none := rfl

theorem get?_cons (k' : K) (v : V) (m : List (K × V)) (k : K) :
    get? ((k', v) :: m) k = if k = k' then some v else get? m k := rfl

@[simp] theorem get?_cons_self (k : K) (v : V) (m : List (K × V)) :
    get? ((k, v) :: m) k = some v := by simp [get?_cons]

theorem get?_cons_of_ne {k k' : K} (h : k ≠ k') (v : V) (m : List (K × V)) :
    get? ((k', v) :: m) k = get? m k := by simp [get?_cons, h]

theorem mem_of_get? {m : List (K × V)} {k : K} {v : V} (h : get? m k = some v) :
    (k, v) ∈ m := by
  induction m with
  | nil => simp at h
  | cons e m ih =>
    obtain ⟨k', v'⟩ := e
    rw [get?_cons] at h
    split at h
    · rename_i hk
      cases h
      subst hk
      exact List.mem_cons_self
    · exact List.mem_cons_of_mem _ (ih h)

theorem get?_isSome_iff {m : List (K × V)} {k : K} :
    (get? m k).isSome ↔ k ∈ m.map Prod.fst := by
  induction m with
  | nil => simp
  | cons e m ih =>
    obtain ⟨k', v'⟩ := e
    by_cases hk : k = k'
    · simp [hk]
    · simp [get?_cons_of_ne hk, ih, hk]

theorem get?_eq_none_iff {m : List (K × V)} {k : K} :
    get? m k = none ↔ k ∉ m.map Prod.fst := by
  rw [← get?_isSome_iff]
  cases get? m k <;> simp

/-- The entries that `f` gives for these keys, in the order of the keys. -/
def ofKeys (ks : List K) (f : K → Option V) : List (K × V) :=
  ks.filterMap fun k => (f k).map fun v => (k, v)

theorem get?_ofKeys (ks : List K) (f : K → Option V) (k : K) :
    get? (ofKeys ks f) k = if k ∈ ks then f k else none := by
  induction ks with
  | nil => simp [ofKeys]
  | cons k' ks ih =>
    simp only [ofKeys] at ih
    by_cases hk : k = k'
    · subst hk
      cases hf : f k with
      | none =>
        simp only [ofKeys, List.filterMap_cons, hf, Option.map_none, ih]
        simp
      | some v =>
        simp only [ofKeys, List.filterMap_cons, hf, Option.map_some, get?_cons_self]
        simp
    · cases hf : f k' with
      | none =>
        simp only [ofKeys, List.filterMap_cons, hf, Option.map_none, ih]
        simp [hk]
      | some v =>
        simp only [ofKeys, List.filterMap_cons, hf, Option.map_some, get?_cons_of_ne hk, ih]
        simp [hk]

/-- Removes every entry with this key. -/
def erase (k : K) (m : List (K × V)) : List (K × V) := m.filter fun e => e.1 ≠ k

theorem get?_erase (k k' : K) (m : List (K × V)) :
    get? (erase k m) k' = if k' = k then none else get? m k' := by
  induction m with
  | nil => simp [erase]
  | cons e m ih =>
    obtain ⟨k₁, v⟩ := e
    simp only [erase] at ih
    by_cases h₁ : k₁ = k
    · subst h₁
      simp only [erase, ne_eq, not_true_eq_false, decide_false, List.filter_cons_of_neg,
        Bool.false_eq_true, not_false_eq_true, ih]
      split
      · rfl
      · rename_i h₂
        rw [get?_cons_of_ne h₂]
    · simp only [erase, ne_eq, h₁, not_false_eq_true, decide_true, List.filter_cons_of_pos,
        get?_cons, ih]
      by_cases h₂ : k' = k₁
      · simp [h₂, h₁]
      · simp [h₂]

end Lookup

/-- Keys increase strictly along the list. -/
def Sorted [LT K] (m : List (K × V)) : Prop := m.Pairwise fun e f => e.1 < f.1

instance [LT K] [DecidableLT K] (m : List (K × V)) : Decidable (Sorted m) :=
  inferInstanceAs (Decidable (m.Pairwise fun e f => e.1 < f.1))

theorem Sorted.tail [LT K] {e : K × V} {m : List (K × V)} (h : Sorted (e :: m)) : Sorted m :=
  (List.pairwise_cons.mp h).2

section Order
variable [LinearOrder K]

theorem get?_of_mem {m : List (K × V)} (hm : Sorted m) {k : K} {v : V} (h : (k, v) ∈ m) :
    get? m k = some v := by
  induction m with
  | nil => simp at h
  | cons e m ih =>
    obtain ⟨k', v'⟩ := e
    rcases List.mem_cons.mp h with he | hmem
    · cases he
      simp
    · have hlt : k' < k := (List.pairwise_cons.mp hm).1 _ hmem
      rw [get?_cons_of_ne hlt.ne']
      exact ih hm.tail hmem

theorem get?_eq_none_of_lt {m : List (K × V)} {k : K} (h : ∀ e ∈ m, k < e.1) :
    get? m k = none := by
  rw [get?_eq_none_iff]
  intro hk
  obtain ⟨e, he, rfl⟩ := List.mem_map.mp hk
  exact lt_irrefl _ (h e he)

theorem sorted_erase {m : List (K × V)} (hm : Sorted m) (k : K) : Sorted (erase k m) :=
  hm.sublist List.filter_sublist

theorem get?_filter {m : List (K × V)} (hm : Sorted m) (p : K × V → Bool) (k : K) :
    get? (m.filter p) k = (get? m k).filter fun v => p (k, v) := by
  induction m with
  | nil => rfl
  | cons e m ih =>
    obtain ⟨k', v⟩ := e
    rw [get?_cons, List.filter_cons]
    by_cases hk : k = k'
    · subst hk
      have hrest : get? (m.filter p) k = none := by
        apply get?_eq_none_of_lt
        intro e he
        exact (List.pairwise_cons.mp hm).1 e (List.mem_of_mem_filter he)
      rw [if_pos rfl, Option.filter_some]
      split
      · rw [get?_cons_self]
      · exact hrest
    · rw [if_neg hk, ← ih hm.tail]
      split
      · rw [get?_cons_of_ne hk]
      · rfl

theorem exists_right_of_forall₂ {A : Type v} {B : Type w} {R : A → B → Prop} {as : List A}
    {bs : List B} (h : List.Forall₂ R as bs) {a : A} (ha : a ∈ as) : ∃ b ∈ bs, R a b := by
  induction h with
  | nil => cases ha
  | cons hab _ ih =>
    rcases List.mem_cons.mp ha with rfl | ha
    · exact ⟨_, List.mem_cons_self, hab⟩
    · obtain ⟨b, hb, hr⟩ := ih ha
      exact ⟨b, List.mem_cons_of_mem _ hb, hr⟩

/-- Two sorted lists whose lookups are related key by key are related entry by entry. -/
theorem forall₂_of_get? {R : V → W → Prop} {m : List (K × V)} {m' : List (K × W)}
    (hm : Sorted m) (hm' : Sorted m')
    (h : ∀ k, Option.Rel R (get? m k) (get? m' k)) :
    List.Forall₂ (fun e f => e.1 = f.1 ∧ R e.2 f.2) m m' := by
  induction m generalizing m' with
  | nil =>
    cases m' with
    | nil => exact .nil
    | cons f m' =>
      have := h f.1
      rw [get?_cons_self] at this
      cases this
  | cons e m ih =>
    obtain ⟨k, v⟩ := e
    cases m' with
    | nil =>
      have := h k
      rw [get?_cons_self] at this
      cases this
    | cons f m' =>
      obtain ⟨k', v'⟩ := f
      have hlow := (List.pairwise_cons.mp hm).1
      have hlow' := (List.pairwise_cons.mp hm').1
      have hk : k = k' := by
        rcases lt_trichotomy k k' with hlt | heq | hgt
        · have hrel := h k
          rw [get?_cons_self, get?_eq_none_of_lt] at hrel
          · cases hrel
          · intro e he
            rcases List.mem_cons.mp he with rfl | he
            · exact hlt
            · exact hlt.trans (hlow' e he)
        · exact heq
        · have hrel := h k'
          rw [get?_cons_self, get?_eq_none_of_lt] at hrel
          · cases hrel
          · intro e he
            rcases List.mem_cons.mp he with rfl | he
            · exact hgt
            · exact hgt.trans (hlow e he)
      subst hk
      refine .cons ⟨rfl, ?_⟩ (ih hm.tail hm'.tail ?_)
      · have hrel := h k
        rw [get?_cons_self, get?_cons_self] at hrel
        cases hrel with
        | some hv => exact hv
      · intro k₁
        by_cases hk : k₁ = k
        · subst hk
          rw [get?_eq_none_of_lt hlow, get?_eq_none_of_lt hlow']
          exact .none
        · have hrel := h k₁
          rwa [get?_cons_of_ne hk, get?_cons_of_ne hk] at hrel

/-- Sorted lists are equal when they look up alike: a sorted list is a map. -/
theorem ext {m m' : List (K × V)} (hm : Sorted m) (hm' : Sorted m')
    (h : ∀ k, get? m k = get? m' k) : m = m' := by
  have hrel : List.Forall₂ (fun e f : K × V => e.1 = f.1 ∧ e.2 = f.2) m m' := by
    apply forall₂_of_get? hm hm'
    intro k
    rw [h k]
    cases get? m' k with
    | none => exact .none
    | some v => exact .some rfl
  have heq : List.Forall₂ Eq m m' := hrel.imp fun _ _ he => Prod.ext he.1 he.2
  rwa [List.forall₂_eq_eq_eq] at heq

theorem ext_mem {m m' : List (K × V)} (hm : Sorted m) (hm' : Sorted m')
    (h : ∀ e, e ∈ m ↔ e ∈ m') : m = m' := by
  apply ext hm hm'
  intro k
  have hget : ∀ {m₁ m₂ : List (K × V)}, Sorted m₂ → (∀ e, e ∈ m₁ → e ∈ m₂) → ∀ v,
      get? m₁ k = some v → get? m₂ k = some v := fun hsorted hsub v hv =>
    get?_of_mem hsorted (hsub _ (mem_of_get? hv))
  cases hk : get? m k with
  | some v => exact (hget hm' (fun e => (h e).mp) v hk).symm
  | none =>
    cases hk' : get? m' k with
    | none => rfl
    | some v =>
      rw [hget hm (fun e => (h e).mpr) v hk'] at hk
      cases hk

/-- Puts the entry at its place in a sorted list, replacing the value already there. -/
def insert (k : K) (v : V) : List (K × V) → List (K × V)
  | [] => [(k, v)]
  | (k', v') :: m =>
    if k < k' then (k, v) :: (k', v') :: m
    else if k = k' then (k, v) :: m
    else (k', v') :: insert k v m

theorem get?_insert (k : K) (v : V) (m : List (K × V)) (k₁ : K) :
    get? (insert k v m) k₁ = if k₁ = k then some v else get? m k₁ := by
  induction m with
  | nil => simp [insert, get?_cons]
  | cons e m ih =>
    obtain ⟨k', v'⟩ := e
    simp only [insert]
    split
    · simp [get?_cons]
    · split
      · rename_i heq
        subst heq
        simp only [get?_cons]
        split <;> rfl
      · rename_i hne
        simp only [get?_cons, ih]
        by_cases h₁ : k₁ = k'
        · simp [h₁, Ne.symm hne]
        · simp [h₁]

theorem mem_insert {k : K} {v : V} {m : List (K × V)} {e : K × V} (h : e ∈ insert k v m) :
    e = (k, v) ∨ e ∈ m := by
  induction m with
  | nil => simpa [insert] using h
  | cons f m ih =>
    obtain ⟨k', v'⟩ := f
    simp only [insert] at h
    split at h
    · exact List.mem_cons.mp h
    · split at h
      · rcases List.mem_cons.mp h with h | h
        · exact Or.inl h
        · exact Or.inr (List.mem_cons_of_mem _ h)
      · rcases List.mem_cons.mp h with h | h
        · exact Or.inr (h ▸ List.mem_cons_self)
        · rcases ih h with h | h
          · exact Or.inl h
          · exact Or.inr (List.mem_cons_of_mem _ h)

theorem sorted_insert {m : List (K × V)} (hm : Sorted m) (k : K) (v : V) :
    Sorted (insert k v m) := by
  induction m with
  | nil => exact List.pairwise_singleton _ _
  | cons e m ih =>
    obtain ⟨k', v'⟩ := e
    have hlow := (List.pairwise_cons.mp hm).1
    simp only [insert]
    split
    · rename_i hlt
      refine List.pairwise_cons.mpr ⟨?_, hm⟩
      intro e he
      rcases List.mem_cons.mp he with rfl | he
      · exact hlt
      · exact lt_trans hlt (hlow e he)
    · split
      · rename_i heq
        subst heq
        exact List.pairwise_cons.mpr ⟨hlow, hm.tail⟩
      · rename_i hnlt hne
        refine List.pairwise_cons.mpr ⟨?_, ih hm.tail⟩
        intro e he
        rcases mem_insert he with rfl | he
        · exact lt_of_le_of_ne (not_lt.mp hnlt) (Ne.symm hne)
        · exact hlow e he

theorem insert_insert (k : K) (v v' : V) (m : List (K × V)) :
    insert k v (insert k v' m) = insert k v m := by
  induction m with
  | nil => simp [insert]
  | cons e m ih =>
    obtain ⟨k', w⟩ := e
    by_cases hlt : k < k'
    · simp [insert, hlt]
    · by_cases heq : k = k'
      · simp [insert, heq]
      · simp [insert, hlt, heq, ih]

theorem length_insert_le (k : K) (v : V) (m : List (K × V)) :
    (insert k v m).length ≤ m.length + 1 := by
  induction m with
  | nil => exact Nat.le_refl 1
  | cons e m ih =>
    unfold insert
    split
    · exact Nat.le_refl _
    · split
      · exact Nat.le_succ _
      · exact Nat.succ_le_succ ih

theorem mem_insert_self (k : K) (v : V) (m : List (K × V)) : (k, v) ∈ insert k v m :=
  mem_of_get? (by rw [get?_insert, if_pos rfl])

theorem mem_insert_of_ne {k : K} {v : V} {m : List (K × V)} (hm : Sorted m) {e : K × V}
    (he : e ∈ m) (hne : e.1 ≠ k) : e ∈ insert k v m :=
  mem_of_get? (by rw [get?_insert, if_neg hne, get?_of_mem hm he])

/-- A key above all others goes to the end. -/
theorem insert_last {m : List (K × V)} {k : K} (h : ∀ e ∈ m, e.1 < k) (v : V) :
    insert k v m = m ++ [(k, v)] := by
  induction m with
  | nil => rfl
  | cons e m ih =>
    obtain ⟨hlt, hrest⟩ := List.forall_mem_cons.mp h
    rw [insert, if_neg (not_lt_of_gt hlt), if_neg hlt.ne', ih hrest]
    rfl

/-- A new key only adds an entry. -/
theorem perm_insert {m : List (K × V)} {k : K} (h : k ∉ m.map Prod.fst) (v : V) :
    (insert k v m).Perm ((k, v) :: m) := by
  induction m with
  | nil => exact List.Perm.refl _
  | cons e m ih =>
    simp only [List.map_cons, List.mem_cons, not_or] at h
    rw [insert]
    split
    · exact List.Perm.refl _
    · rw [if_neg h.1]
      exact (List.Perm.cons e (ih h.2)).trans (List.Perm.swap (k, v) e m)

theorem get?_eq_none_of_gt {m : List (K × V)} {k : K} (h : ∀ e ∈ m, e.1 < k) :
    get? m k = none := by
  rw [get?_eq_none_iff]
  intro hk
  obtain ⟨e, he, rfl⟩ := List.mem_map.mp hk
  exact lt_irrefl _ (h e he)

section Fold
variable {A : Type u} {key : A → K} {value : A → V}

theorem sorted_foldl_insert (l : List A) {m : List (K × V)} (hm : Sorted m) :
    Sorted (l.foldl (fun m a => insert (key a) (value a) m) m) := by
  induction l generalizing m with
  | nil => exact hm
  | cons a l ih => exact ih (sorted_insert hm _ _)

theorem mem_foldl_insert {l : List A} {m : List (K × V)} {e : K × V}
    (h : e ∈ l.foldl (fun m a => insert (key a) (value a) m) m) :
    e ∈ m ∨ ∃ a ∈ l, e = (key a, value a) := by
  induction l generalizing m with
  | nil => exact Or.inl h
  | cons a l ih =>
    rcases ih h with h | ⟨b, hb, rfl⟩
    · rcases mem_insert h with rfl | h
      · exact Or.inr ⟨a, List.mem_cons_self, rfl⟩
      · exact Or.inl h
    · exact Or.inr ⟨b, List.mem_cons_of_mem a hb, rfl⟩

theorem key_mem_foldl_insert {l : List A} {m : List (K × V)} {k : K}
    (h : k ∈ m.map Prod.fst ∨ k ∈ l.map key) :
    k ∈ (l.foldl (fun m a => insert (key a) (value a) m) m).map Prod.fst := by
  induction l generalizing m with
  | nil => exact h.resolve_right fun h => nomatch h
  | cons a l ih =>
    refine ih ?_
    by_cases hk : k = key a
    · exact Or.inl (hk ▸ List.mem_map_of_mem (mem_insert_self _ _ _))
    · rcases h with h | h
      · refine Or.inl (get?_isSome_iff.mp ?_)
        rw [get?_insert, if_neg hk]
        exact get?_isSome_iff.mpr h
      · exact Or.inr ((List.mem_cons.mp h).resolve_left hk)

/-- Entries with distinct keys that are all new. -/
theorem perm_foldl_insert (l m : List (K × V)) (h : ((l ++ m).map Prod.fst).Nodup) :
    (l.foldl (fun m e => insert e.1 e.2 m) m).Perm (l ++ m) := by
  induction l generalizing m with
  | nil => exact List.Perm.refl _
  | cons e l ih =>
    have hperm : (l ++ e :: m).Perm (e :: l ++ m) := List.perm_middle
    have hnodup : ((l ++ e :: m).map Prod.fst).Nodup := (hperm.map Prod.fst).nodup_iff.mpr h
    have hnew : e.1 ∉ m.map Prod.fst := by
      rw [List.map_append, List.nodup_append, List.map_cons, List.nodup_cons] at hnodup
      exact hnodup.2.1.1
    have hinsert : (insert e.1 e.2 m).Perm (e :: m) := perm_insert hnew e.2
    refine (ih _ ?_).trans ((hinsert.append_left l).trans hperm)
    exact ((hinsert.append_left l).map Prod.fst).nodup_iff.mpr hnodup

theorem length_foldl_insert_le (l m : List (K × V)) :
    (l.foldl (fun m e => insert e.1 e.2 m) m).length ≤ l.length + m.length := by
  induction l generalizing m with
  | nil => exact Nat.le_of_eq (Nat.zero_add _).symm
  | cons e l ih =>
    have hrest := ih (insert e.1 e.2 m)
    have hstep := length_insert_le e.1 e.2 m
    rw [List.foldl_cons, List.length_cons]
    omega

theorem insert_map (f : V → W) (k : K) (v : V) (m : List (K × V)) :
    insert k (f v) (m.map fun e => (e.1, f e.2)) = (insert k v m).map fun e => (e.1, f e.2) := by
  induction m with
  | nil => rfl
  | cons e m ih =>
    rw [List.map_cons, insert, insert, ih]
    split
    · rfl
    · split <;> rfl

theorem foldl_insert_map (f : V → W) (l m : List (K × V)) :
    (l.map fun e => (e.1, f e.2)).foldl (fun m e => insert e.1 e.2 m)
        (m.map fun e => (e.1, f e.2)) =
      (l.foldl (fun m e => insert e.1 e.2 m) m).map fun e => (e.1, f e.2) := by
  induction l generalizing m with
  | nil => rfl
  | cons e l ih => rw [List.map_cons, List.foldl_cons, List.foldl_cons, ← ih, ← insert_map]

/-- Insertion of the entries that `f` keeps. -/
theorem get?_foldl_filterMap (f : V → Option W) {m : List (K × V)} (hm : Sorted m)
    (acc : List (K × W)) (key : K) :
    get? ((m.filterMap fun e => (f e.2).map fun w => (e.1, w)).foldl
        (fun m e => insert e.1 e.2 m) acc) key =
      ((get? m key).bind f).or (get? acc key) := by
  induction m generalizing acc with
  | nil => rfl
  | cons e m ih =>
    obtain ⟨k, v⟩ := e
    have hlater : key = k → get? m key = none := fun h =>
      get?_eq_none_of_lt (h ▸ (List.pairwise_cons.mp hm).1)
    rw [List.filterMap_cons, get?_cons]
    cases hf : f v with
    | none =>
      rw [Option.map_none]
      dsimp only
      rw [ih hm.tail]
      split
      · rename_i hkey
        rw [hlater hkey, Option.bind_some, hf, Option.bind_none]
      · rfl
    | some w =>
      rw [Option.map_some]
      dsimp only
      rw [List.foldl_cons, ih hm.tail, get?_insert]
      by_cases hkey : key = k
      · rw [if_pos hkey, if_pos hkey, hlater hkey, Option.bind_none, Option.none_or,
          Option.bind_some, hf, Option.some_or]
      · rw [if_neg hkey, if_neg hkey]

end Fold

/-- Changes what is under a key, whether there is something or not. -/
def update (k : K) (f : Option V → V) (m : List (K × V)) : List (K × V) := insert k (f (get? m k)) m

theorem get?_update (k : K) (f : Option V → V) (m : List (K × V)) (k₁ : K) :
    get? (update k f m) k₁ = if k₁ = k then some (f (get? m k)) else get? m k₁ :=
  get?_insert k _ m k₁

section Tally
variable {A : Type u} {key : A → Option K} {f : A → Option V → V}

/-- One pass over a list, each element changing what is under its key. -/
def tally (key : A → Option K) (f : A → Option V → V) (xs : List A) (m : List (K × V)) : List (K × V) :=
  xs.foldl (fun m a => (key a).elim m fun k => update k (f a) m) m

theorem sorted_tally (xs : List A) {m : List (K × V)} (hm : Sorted m) : Sorted (tally key f xs m) := by
  induction xs generalizing m with
  | nil => exact hm
  | cons a xs ih =>
    refine ih ?_
    change Sorted ((key a).elim m fun k => update k (f a) m)
    cases key a with
    | none => exact hm
    | some k => exact sorted_insert hm k _

/-- The elements of one key alone decide what is under it. -/
theorem get?_tally (xs : List A) (m : List (K × V)) (k : K) :
    get? (tally key f xs m) k =
      (xs.filter fun a => key a = some k).foldl (fun v a => some (f a v)) (get? m k) := by
  induction xs generalizing m with
  | nil => rfl
  | cons a xs ih =>
    rw [tally, List.foldl_cons, ← tally, ih]
    cases ha : key a with
    | none => simp [ha]
    | some k₁ =>
      by_cases hk : k₁ = k
      · subst hk
        simp [ha, get?_update]
      · simp [ha, hk, get?_update, Ne.symm hk]

theorem foldl_some_getD (op : V → A → V) (z : V) (xs : List A) (v : Option V) :
    xs.foldl (fun v a => some (op (v.getD z) a)) v =
      if xs = [] then v else some (xs.foldl op (v.getD z)) := by
  induction xs generalizing v with
  | nil => rfl
  | cons a xs ih =>
    rw [List.foldl_cons, ih]
    cases xs with
    | nil => rfl
    | cons b xs => rfl

/-- A pass that starts from nothing folds the elements of each key. -/
theorem get?_tally_nil (key : A → Option K) (op : V → A → V) (z : V) (xs : List A) (k : K) :
    get? (tally key (fun a v => op (v.getD z) a) xs []) k =
      if (xs.filter fun a => key a = some k) = [] then none
      else some ((xs.filter fun a => key a = some k).foldl op z) :=
  (get?_tally xs [] k).trans (foldl_some_getD op z _ none)

end Tally

theorem le_last {m : List (K × V)} (hm : Sorted m) {last : K × V} (h : m.getLast? = some last)
    {e : K × V} (he : e ∈ m) : e.1 ≤ last.1 := by
  obtain ⟨init, rfl⟩ := List.getLast?_eq_some_iff.mp h
  rcases List.mem_append.mp he with he | he
  · exact le_of_lt ((List.pairwise_append.mp hm).2.2 e he last List.mem_cons_self)
  · rw [List.mem_singleton.mp he]

/-- Puts a key at its place in a strictly increasing list of keys. -/
def insertKey (k : K) : List K → List K
  | [] => [k]
  | k' :: ks => if k < k' then k :: k' :: ks else if k = k' then k' :: ks else k' :: insertKey k ks

theorem mem_insertKey {k k' : K} {ks : List K} : k' ∈ insertKey k ks ↔ k' = k ∨ k' ∈ ks := by
  induction ks with
  | nil => simp [insertKey]
  | cons k₁ ks ih =>
    simp only [insertKey]
    split
    · simp
    · split
      · rename_i heq
        simp [heq]
      · simp only [List.mem_cons, ih]
        exact or_left_comm

theorem pairwise_insertKey {k : K} {ks : List K} (h : ks.Pairwise (· < ·)) :
    (insertKey k ks).Pairwise (· < ·) := by
  induction ks with
  | nil => exact List.pairwise_singleton _ _
  | cons k₁ ks ih =>
    obtain ⟨hlow, htail⟩ := List.pairwise_cons.mp h
    simp only [insertKey]
    split
    · rename_i hlt
      refine List.pairwise_cons.mpr ⟨?_, h⟩
      intro k' hk'
      rcases List.mem_cons.mp hk' with rfl | hk'
      · exact hlt
      · exact hlt.trans (hlow k' hk')
    · split
      · exact h
      · rename_i hnlt hne
        refine List.pairwise_cons.mpr ⟨?_, ih htail⟩
        intro k' hk'
        rcases mem_insertKey.mp hk' with rfl | hk'
        · exact lt_of_le_of_ne (not_lt.mp hnlt) (Ne.symm hne)
        · exact hlow k' hk'

/-- The distinct keys of a list in increasing order. -/
def keySet (ks : List K) : List K := ks.foldr insertKey []

theorem mem_keySet {k : K} {ks : List K} : k ∈ keySet ks ↔ k ∈ ks := by
  induction ks with
  | nil => simp [keySet]
  | cons k' ks ih =>
    have hfold : keySet (k' :: ks) = insertKey k' (keySet ks) := rfl
    rw [hfold, mem_insertKey, ih, List.mem_cons]

theorem pairwise_keySet (ks : List K) : (keySet ks).Pairwise (· < ·) := by
  induction ks with
  | nil => exact List.Pairwise.nil
  | cons k ks ih => exact pairwise_insertKey ih

theorem sorted_ofKeys {ks : List K} (h : ks.Pairwise (· < ·)) (f : K → Option V) :
    Sorted (ofKeys ks f) := by
  apply List.Pairwise.filterMap _ _ h
  intro k k' hlt e he e' he'
  obtain ⟨v, _, rfl⟩ := Option.map_eq_some_iff.mp he
  obtain ⟨v', _, rfl⟩ := Option.map_eq_some_iff.mp he'
  exact hlt

end Order

end SortedAssoc
