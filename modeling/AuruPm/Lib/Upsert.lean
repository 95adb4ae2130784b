import AuruPm.Lib.FirstOf
import Mathlib.Data.List.Induction

/-!
# Updating rows from seeds

A pass over seeds that updates the first row with the seed's key, or appends a new row. The result
is settled once and for all: the first row of each key has taken the seeds of its key, one after
the other, and the new rows are those of the keys that were not there.
-/

namespace Upsert

set_option autoImplicit false

open FirstOf

universe u v w

structure Scheme (Row : Type u) (Seed : Type v) (K : Type w) where
  key : Row → Option K
  seedKey : Seed → K
  touch : Row → Seed → Row
  make : Seed → Row

variable {Row : Type u} {Seed : Type v} {K : Type w}

structure Scheme.Lawful (S : Scheme Row Seed K) : Prop where
  key_touch : ∀ row seed, S.key (S.touch row seed) = S.key row
  key_make : ∀ seed, S.key (S.make seed) = some (S.seedKey seed)
  /-- A new row has taken its seed. -/
  touch_make : ∀ seed, S.touch (S.make seed) seed = S.make seed
  touch_twice : ∀ (seeds : List Seed) (row : Row),
    seeds.foldl S.touch (seeds.foldl S.touch row) = seeds.foldl S.touch row

/-- Changes the first row that passes, if there is one. -/
def updateFirst (p : Row → Bool) (f : Row → Row) : List Row → Option (List Row)
  | [] => none
  | row :: rest => if p row then some (f row :: rest) else (updateFirst p f rest).map (row :: ·)

theorem updateFirst_eq_none {p : Row → Bool} {f : Row → Row} {rows : List Row}
    (h : ∀ row ∈ rows, p row = false) : updateFirst p f rows = none := by
  induction rows with
  | nil => rfl
  | cons row rest ih =>
    obtain ⟨hrow, hrest⟩ := List.forall_mem_cons.mp h
    rw [updateFirst, hrow, if_neg Bool.false_ne_true, ih hrest]
    rfl

theorem updateFirst_of_mem {p : Row → Bool} (f : Row → Row) {rows : List Row} {row : Row}
    (hrow : row ∈ rows) (hp : p row = true) : ∃ rows', updateFirst p f rows = some rows' := by
  induction rows with
  | nil => cases hrow
  | cons first rest ih =>
    rw [updateFirst]
    split
    · exact ⟨_, rfl⟩
    · rename_i hfirst
      rcases List.mem_cons.mp hrow with rfl | hrow
      · exact absurd hp hfirst
      · obtain ⟨rest', hrest⟩ := ih hrow
        exact ⟨first :: rest', by rw [hrest]; rfl⟩

/-- A change of the first row that passes, in place. -/
theorem updateFirst_some {p : Row → Bool} {f : Row → Row} {rows rows' : List Row}
    (h : updateFirst p f rows = some rows') : ∃ before row after,
      rows = before ++ row :: after ∧ p row = true ∧ rows' = before ++ f row :: after := by
  induction rows generalizing rows' with
  | nil => cases h
  | cons row rest ih =>
    rw [updateFirst] at h
    split at h
    · rename_i hp
      exact ⟨[], row, rest, rfl, hp, (Option.some.inj h).symm⟩
    · obtain ⟨rest', hrest, rfl⟩ := Option.map_eq_some_iff.mp h
      obtain ⟨before, found, after, rfl, hp, rfl⟩ := ih hrest
      exact ⟨row :: before, found, after, rfl, hp, rfl⟩

variable [DecidableEq K] (S : Scheme Row Seed K)

def upsert (rows : List Row) (seed : Seed) : List Row :=
  (updateFirst (fun row => S.key row = some (S.seedKey seed)) (fun row => S.touch row seed)
    rows).getD (rows ++ [S.make seed])

/-- The seeds of one key. -/
def group (seeds : List Seed) (k : K) : List Seed := seeds.filter fun seed => S.seedKey seed = k

/-- The first row of each key that is not seen yet takes the seeds of its key. -/
def settle (seeds : List Seed) : List K → List Row → List Row
  | _, [] => []
  | seen, row :: rest =>
    match S.key row with
    | none => row :: settle seeds seen rest
    | some k =>
      (if k ∈ seen then row else (group S seeds k).foldl S.touch row) ::
        settle seeds (k :: seen) rest

/-- The rows made for keys that no row has. -/
def newRows (rows : List Row) (seeds : List Seed) : List Row :=
  (firsts S.seedKey (rows.filterMap S.key) seeds).map S.make

variable {S} {seeds : List Seed} {seen : List K} {rows : List Row} {seed : Seed}

theorem group_concat (k : K) :
    group S (seeds ++ [seed]) k =
      if S.seedKey seed = k then group S seeds k ++ [seed] else group S seeds k := by
  rw [group, List.filter_append]
  by_cases h : S.seedKey seed = k
  · simp [group, h]
  · simp [group, h]

theorem settle_none {row : Row} (h : S.key row = none) :
    settle S seeds seen (row :: rows) = row :: settle S seeds seen rows := by
  rw [settle, h]

theorem settle_some {row : Row} {k : K} (h : S.key row = some k) :
    settle S seeds seen (row :: rows) =
      (if k ∈ seen then row else (group S seeds k).foldl S.touch row) ::
        settle S seeds (k :: seen) rows := by
  rw [settle, h]

/-- A seed whose key is seen changes nothing. -/
theorem settle_concat_of_seen (h : S.seedKey seed ∈ seen) :
    settle S (seeds ++ [seed]) seen rows = settle S seeds seen rows := by
  induction rows generalizing seen with
  | nil => rfl
  | cons row rest ih =>
    cases hkey : S.key row with
    | none => rw [settle_none hkey, settle_none hkey, ih h]
    | some k =>
      rw [settle_some hkey, settle_some hkey, ih (List.mem_cons_of_mem k h)]
      by_cases hseen : k ∈ seen
      · rw [if_pos hseen, if_pos hseen]
      · have hne : S.seedKey seed ≠ k := fun heq => hseen (heq ▸ h)
        rw [if_neg hseen, if_neg hseen, group_concat, if_neg hne]

/-- Nor does one whose key no row has. -/
theorem settle_concat_of_absent (h : ∀ row ∈ rows, S.key row ≠ some (S.seedKey seed)) :
    settle S (seeds ++ [seed]) seen rows = settle S seeds seen rows := by
  induction rows generalizing seen with
  | nil => rfl
  | cons row rest ih =>
    obtain ⟨hrow, hrest⟩ := List.forall_mem_cons.mp h
    cases hkey : S.key row with
    | none => rw [settle_none hkey, settle_none hkey, ih hrest]
    | some k =>
      have hne : S.seedKey seed ≠ k := fun heq => hrow (heq ▸ hkey)
      rw [settle_some hkey, settle_some hkey, ih hrest, group_concat, if_neg hne]

theorem settle_nil : settle S [] seen rows = rows := by
  induction rows generalizing seen with
  | nil => rfl
  | cons row rest ih =>
    cases hkey : S.key row with
    | none => rw [settle_none hkey, ih]
    | some k =>
      rw [settle_some hkey, ih]
      split <;> rfl

theorem settle_concat_row {row : Row}
    (h : ∀ k, S.key row = some k → (group S seeds k).foldl S.touch row = row) :
    settle S seeds seen (rows ++ [row]) = settle S seeds seen rows ++ [row] := by
  induction rows generalizing seen with
  | nil =>
    cases hkey : S.key row with
    | none => rw [List.nil_append, settle_none hkey]; rfl
    | some k =>
      rw [List.nil_append, settle_some hkey, h k hkey, ite_self]
      rfl
  | cons first rest ih =>
    cases hkey : S.key first with
    | none => rw [List.cons_append, settle_none hkey, settle_none hkey, ih]; rfl
    | some k => rw [List.cons_append, settle_some hkey, settle_some hkey, ih]; rfl

theorem settle_congr {seen' : List K} (h : ∀ k, k ∈ seen ↔ k ∈ seen') :
    settle S seeds seen rows = settle S seeds seen' rows := by
  induction rows generalizing seen seen' with
  | nil => rfl
  | cons row rest ih =>
    cases hkey : S.key row with
    | none => rw [settle_none hkey, settle_none hkey, ih h]
    | some k =>
      have hnext : ∀ k', k' ∈ k :: seen ↔ k' ∈ k :: seen' := by
        intro k'
        rw [List.mem_cons, List.mem_cons, h]
      rw [settle_some hkey, settle_some hkey, ih hnext]
      simp only [h]

theorem settle_append (xs ys : List Row) :
    settle S seeds seen (xs ++ ys) =
      settle S seeds seen xs ++ settle S seeds (xs.filterMap S.key ++ seen) ys := by
  induction xs generalizing seen with
  | nil => rfl
  | cons row rest ih =>
    cases hkey : S.key row with
    | none =>
      rw [List.cons_append, settle_none hkey, settle_none hkey, ih, List.filterMap_cons_none hkey]
      rfl
    | some k =>
      have hseen : ∀ k', k' ∈ rest.filterMap S.key ++ k :: seen ↔
          k' ∈ k :: rest.filterMap S.key ++ seen := by
        intro k'
        simp only [List.mem_append, List.mem_cons]
        exact or_left_comm.trans or_assoc.symm
      rw [List.cons_append, settle_some hkey, settle_some hkey, ih, settle_congr hseen,
        List.filterMap_cons_some hkey]
      rfl

/-- What holds of every row that has taken its seeds holds of all rows when it held already of
those that are not the first of their key. -/
theorem forall_settle_iff {P : Row → Prop} (hnone : ∀ row, S.key row = none → P row)
    (hsome : ∀ row k, S.key row = some k → P ((group S seeds k).foldl S.touch row)) :
    (∀ row ∈ settle S seeds seen rows, P row) ↔
      (rows.Pairwise fun a b => S.key a = S.key b → P b) ∧
        ∀ row ∈ rows, ∀ k ∈ seen, S.key row = some k → P row := by
  induction rows generalizing seen with
  | nil => simp [settle]
  | cons row rest ih =>
    cases hkey : S.key row with
    | none =>
      rw [settle_none hkey, List.forall_mem_cons, ih, List.pairwise_cons, List.forall_mem_cons]
      have hfree : ∀ b ∈ rest, S.key row = S.key b → P b := fun b _ heq =>
        hnone b (heq.symm.trans hkey)
      have hfirst : ∀ k ∈ seen, S.key row = some k → P row := fun _ _ _ => hnone row hkey
      constructor
      · exact fun h => ⟨⟨hfree, h.2.1⟩, hfirst, h.2.2⟩
      · exact fun h => ⟨hnone row hkey, h.1.2, h.2.2⟩
    | some k =>
      rw [settle_some hkey, List.forall_mem_cons, ih, List.pairwise_cons, List.forall_mem_cons]
      constructor
      · rintro ⟨hrow, hrest, hseen⟩
        refine ⟨⟨?_, hrest⟩, ?_, fun r hr k' hk' => hseen r hr k' (List.mem_cons_of_mem k hk')⟩
        · intro b hb heq
          exact hseen b hb k List.mem_cons_self (heq.symm.trans hkey)
        · intro k' hk' heq
          obtain rfl : k = k' := Option.some.inj (hkey.symm.trans heq)
          rwa [if_pos hk'] at hrow
      · rintro ⟨⟨hlater, hrest⟩, hrow, hseen⟩
        refine ⟨?_, hrest, ?_⟩
        · split
          · rename_i hk
            exact hrow k hk hkey
          · exact hsome row k hkey
        · intro r hr k' hk' heq
          rcases List.mem_cons.mp hk' with rfl | hk'
          · exact hlater r hr (hkey.trans heq.symm)
          · exact hseen r hr k' hk' heq

/-- A row of the result is the row it was, or has taken the seeds of its key. -/
theorem settle_rows : List.Forall₂
    (fun row row' => row' = row ∨
      ∃ k, S.key row = some k ∧ row' = (group S seeds k).foldl S.touch row)
    rows (settle S seeds seen rows) := by
  induction rows generalizing seen with
  | nil => exact .nil
  | cons row rest ih =>
    cases hkey : S.key row with
    | none =>
      rw [settle_none hkey]
      exact .cons (Or.inl rfl) ih
    | some k =>
      rw [settle_some hkey]
      refine .cons ?_ ih
      split
      · exact Or.inl rfl
      · exact Or.inr ⟨k, hkey, rfl⟩

/-- Rows without a key stay as they are. -/
theorem settle_filter {p : Row → Bool} (hkey : ∀ row ∈ rows, p row = true → S.key row = none)
    (htouch : ∀ row seed, p (S.touch row seed) = p row) :
    (settle S seeds seen rows).filter p = rows.filter p := by
  have hfold : ∀ (seeds : List Seed) (row : Row), p (seeds.foldl S.touch row) = p row := by
    intro seeds
    induction seeds with
    | nil => exact fun _ => rfl
    | cons seed seeds ih => exact fun row => (ih _).trans (htouch row seed)
  induction rows generalizing seen with
  | nil => rfl
  | cons row rest ih =>
    obtain ⟨hrow, hrest⟩ := List.forall_mem_cons.mp hkey
    cases hk : S.key row with
    | none => rw [settle_none hk, List.filter_cons, List.filter_cons, ih hrest]
    | some k =>
      have hout : p row = false := by
        rw [Bool.eq_false_iff]
        intro hp
        rw [hrow hp] at hk
        cases hk
      have hout' : p (if k ∈ seen then row else (group S seeds k).foldl S.touch row) = false := by
        split
        · exact hout
        · rw [hfold, hout]
      rw [settle_some hk, List.filter_cons, List.filter_cons, hout, hout', ih hrest]
      rfl

section Lawful
variable (hS : S.Lawful)
include hS

omit [DecidableEq K] in
theorem key_foldl (seeds : List Seed) (row : Row) : S.key (seeds.foldl S.touch row) = S.key row := by
  induction seeds generalizing row with
  | nil => rfl
  | cons seed seeds ih => rw [List.foldl_cons, ih, hS.key_touch]

theorem map_key_settle : (settle S seeds seen rows).map S.key = rows.map S.key := by
  induction rows generalizing seen with
  | nil => rfl
  | cons row rest ih =>
    cases hkey : S.key row with
    | none => rw [settle_none hkey, List.map_cons, List.map_cons, ih]
    | some k =>
      rw [settle_some hkey, List.map_cons, List.map_cons, ih]
      split
      · rfl
      · rw [key_foldl hS]

theorem settle_settle :
    settle S seeds seen (settle S seeds seen rows) = settle S seeds seen rows := by
  induction rows generalizing seen with
  | nil => rfl
  | cons row rest ih =>
    cases hkey : S.key row with
    | none => rw [settle_none hkey, settle_none hkey, ih]
    | some k =>
      have hfirst : S.key (if k ∈ seen then row else (group S seeds k).foldl S.touch row) =
          some k := by
        split
        · exact hkey
        · rw [key_foldl hS, hkey]
      rw [settle_some hkey, settle_some hfirst, ih]
      split
      · rfl
      · rw [hS.touch_twice]

theorem filterMap_key_settle :
    (settle S seeds seen rows).filterMap S.key = rows.filterMap S.key := by
  have hkeys : (settle S seeds seen rows).map S.key = rows.map S.key := map_key_settle hS
  have h := congrArg (List.filterMap id) hkeys
  rwa [List.filterMap_map, List.filterMap_map, Function.id_comp] at h

/-- The first row with the seed's key takes the seed. -/
theorem updateFirst_settle (hseen : S.seedKey seed ∉ seen)
    (h : ∃ row ∈ rows, S.key row = some (S.seedKey seed)) :
    updateFirst (fun row => S.key row = some (S.seedKey seed)) (fun row => S.touch row seed)
      (settle S seeds seen rows) = some (settle S (seeds ++ [seed]) seen rows) := by
  induction rows generalizing seen with
  | nil =>
    obtain ⟨row, hrow, _⟩ := h
    cases hrow
  | cons row rest ih =>
    have hrest : S.key row ≠ some (S.seedKey seed) →
        ∃ row ∈ rest, S.key row = some (S.seedKey seed) := by
      intro hne
      obtain ⟨other, hother, hkey⟩ := h
      rcases List.mem_cons.mp hother with rfl | hother
      · exact absurd hkey hne
      · exact ⟨other, hother, hkey⟩
    cases hkey : S.key row with
    | none =>
      rw [settle_none hkey, settle_none hkey, updateFirst, if_neg (by simp [hkey]),
        ih hseen (hrest (by simp [hkey]))]
      rfl
    | some k =>
      rw [settle_some hkey, settle_some hkey, updateFirst]
      by_cases hsame : k = S.seedKey seed
      · subst hsame
        rw [if_neg hseen, if_neg hseen, if_pos (by simp [key_foldl hS, hkey]), group_concat,
          if_pos rfl, List.foldl_append, settle_concat_of_seen List.mem_cons_self]
        rfl
      · have hne : S.key row ≠ some (S.seedKey seed) := fun heq =>
          hsame (Option.some.inj (hkey.symm.trans heq))
        have hfirst : S.key (if k ∈ seen then row else (group S seeds k).foldl S.touch row) =
            some k := by
          split
          · exact hkey
          · rw [key_foldl hS, hkey]
        have hlater : S.seedKey seed ∉ k :: seen := fun hmem =>
          (List.mem_cons.mp hmem).elim (fun heq => hsame heq.symm) hseen
        rw [if_neg (by simpa [hfirst] using hsame), ih hlater (hrest hne), group_concat,
          if_neg (Ne.symm hsame)]
        rfl

theorem nodup_newRows_key : ((newRows S rows seeds).map S.key).Nodup := by
  have hkeys : (newRows S rows seeds).map S.key =
      ((firsts S.seedKey (rows.filterMap S.key) seeds).map S.seedKey).map some := by
    rw [newRows, List.map_map, List.map_map]
    exact List.map_congr_left fun seed _ => hS.key_make seed
  rw [hkeys]
  exact (nodup_firsts _ _).map (Option.some_injective _)

theorem mem_newRows_key {k : K} :
    (∃ row ∈ rows ++ newRows S rows seeds, S.key row = some k) ↔
      k ∈ rows.filterMap S.key ∨ k ∈ seeds.map S.seedKey := by
  constructor
  · rintro ⟨row, hrow, hkey⟩
    rcases List.mem_append.mp hrow with hrow | hrow
    · exact Or.inl (List.mem_filterMap.mpr ⟨row, hrow, hkey⟩)
    · obtain ⟨seed, hseed, rfl⟩ := List.mem_map.mp hrow
      rw [hS.key_make, Option.some.injEq] at hkey
      exact Or.inr (hkey ▸ List.mem_map_of_mem (mem_of_firsts hseed).1)
  · intro h
    by_cases hrows : k ∈ rows.filterMap S.key
    · obtain ⟨row, hrow, hkey⟩ := List.mem_filterMap.mp hrows
      exact ⟨row, List.mem_append_left _ hrow, hkey⟩
    · obtain ⟨seed, hseed, rfl⟩ := List.mem_map.mp (h.resolve_left hrows)
      obtain ⟨first, hfirst, hkey⟩ := exists_firsts hseed hrows
      refine ⟨S.make first, List.mem_append_right _ (List.mem_map_of_mem hfirst), ?_⟩
      rw [hS.key_make, hkey]

/-- What a pass over seeds makes of the rows. -/
theorem foldl_upsert (seeds : List Seed) (rows : List Row) :
    seeds.foldl (upsert S) rows = settle S seeds [] (rows ++ newRows S rows seeds) := by
  induction seeds using List.reverseRecOn with
  | nil => rw [settle_nil]; simp [newRows, firsts]
  | append_singleton seeds seed ih =>
    rw [List.foldl_append, List.foldl_cons, List.foldl_nil, ih, upsert]
    by_cases hthere : S.seedKey seed ∈ rows.filterMap S.key ∨ S.seedKey seed ∈ seeds.map S.seedKey
    · have hnew : newRows S rows (seeds ++ [seed]) = newRows S rows seeds := by
        rw [newRows, firsts_concat, if_pos hthere, List.append_nil, newRows]
      rw [hnew, updateFirst_settle hS List.not_mem_nil ((mem_newRows_key hS).mpr hthere)]
      rfl
    · have habsent : ∀ row ∈ rows ++ newRows S rows seeds, S.key row ≠ some (S.seedKey seed) :=
        fun row hrow hkey => hthere ((mem_newRows_key hS).mp ⟨row, hrow, hkey⟩)
      have hnew : newRows S rows (seeds ++ [seed]) = newRows S rows seeds ++ [S.make seed] := by
        rw [newRows, firsts_concat, if_neg hthere, List.map_append, newRows]
        rfl
      have hnone : updateFirst (fun row => S.key row = some (S.seedKey seed))
          (fun row => S.touch row seed)
          (settle S seeds [] (rows ++ newRows S rows seeds)) = none := by
        apply updateFirst_eq_none
        intro row hrow
        have hmem := List.mem_map_of_mem (f := S.key) hrow
        rw [map_key_settle hS] at hmem
        obtain ⟨row', hrow', hkey⟩ := List.mem_map.mp hmem
        exact decide_eq_false (hkey ▸ habsent row' hrow')
      have hgroup : group S seeds (S.seedKey seed) = [] := by
        rw [group, List.filter_eq_nil_iff]
        intro other hother hkey
        exact hthere (Or.inr (List.mem_map.mpr ⟨other, hother, of_decide_eq_true hkey⟩))
      rw [hnone, Option.getD_none, hnew, ← List.append_assoc, settle_concat_row,
        settle_concat_of_absent habsent]
      intro k hkey
      rw [hS.key_make, Option.some.injEq] at hkey
      rw [group_concat, if_pos hkey, ← hkey, hgroup, List.nil_append, List.foldl_cons,
        List.foldl_nil, hS.touch_make]

end Lawful

end Upsert
