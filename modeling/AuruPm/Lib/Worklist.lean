import Mathlib.Algebra.GroupWithZero.Nat
import Mathlib.Data.List.Perm.Subperm

/-!
# Collecting everything reachable

A loop pops a key off a stack, skips it if it was seen, and otherwise reads its record and
pushes the keys that the record refers to. When it ends well it has read the records of
exactly the keys reachable from the first stack. It ends well if all of those can be read.
-/

namespace Worklist

set_option autoImplicit false

universe u v w w'

variable {K : Type u} {V : Type v} {E : Type w}

section Loop
variable (endless : E) (read : K → Except E V) (next : K → V → List K)

/-- The loop, for at most so many pops. The head of the list is the top of the stack. -/
def collect [DecidableEq K] : Nat → List K → List K → List V → Except E (List V)
  | _, [], _, found => .ok found
  | 0, _ :: _, _, _ => .error endless
  | pops + 1, k :: pending, seen, found =>
    if k ∈ seen then collect pops pending seen found
    else
      match read k with
      | .error e => .error e
      | .ok v => collect pops ((next k v).reverse ++ pending) (k :: seen) (found ++ [v])

/-- A key that the loop has to visit. -/
inductive Marked (roots : List K) : K → Prop
  | root {k : K} (h : k ∈ roots) : Marked roots k
  | step {k k' : K} {v : V} (h : Marked roots k) (hr : read k = .ok v) (hk : k' ∈ next k v) :
      Marked roots k'

variable {endless read next}

theorem Marked.trans {roots roots' : List K} {k : K} (h : Marked read next roots k)
    (hroots : ∀ k ∈ roots, Marked read next roots' k) : Marked read next roots' k := by
  induction h with
  | root hk => exact hroots _ hk
  | step _ hr hk ih => exact .step ih hr hk

theorem Marked.mono {roots roots' : List K} {k : K} (h : Marked read next roots k)
    (hsub : ∀ k ∈ roots, k ∈ roots') : Marked read next roots' k :=
  h.trans fun k hk => .root (hsub k hk)

/-- A reader that succeeds more often reaches as much. -/
theorem Marked.of_read {read' : K → Except E V} (hread : ∀ k v, read k = .ok v → read' k = .ok v)
    {roots : List K} {k : K} (h : Marked read next roots k) : Marked read' next roots k := by
  induction h with
  | root hk => exact .root hk
  | step _ hr hk ih => exact .step ih (hread _ _ hr) hk

/-- What holds between two pops: `seen` and `found` go together, and a seen key's references
are seen or pending. -/
structure Invariant (read : K → Except E V) (next : K → V → List K) (key : V → K) (roots : List K)
    (pending seen : List K) (found : List V) : Prop where
  sound : ∀ k ∈ pending, Marked read next roots k
  marked : ∀ v ∈ found, Marked read next roots (key v)
  read_found : ∀ v ∈ found, read (key v) = .ok v
  seen_iff : ∀ k, k ∈ seen ↔ ∃ v ∈ found, key v = k
  roots_in : ∀ k ∈ roots, k ∈ seen ∨ k ∈ pending
  closed : ∀ v ∈ found, ∀ k ∈ next (key v) v, k ∈ seen ∨ k ∈ pending

variable {key : V → K}

theorem Invariant.start (key : V → K) (roots : List K) : Invariant read next key roots roots [] [] where
  sound _ hk := .root hk
  marked _ hv := absurd hv List.not_mem_nil
  read_found _ hv := absurd hv List.not_mem_nil
  seen_iff k := by simp
  roots_in _ hk := Or.inr hk
  closed _ hv := absurd hv List.not_mem_nil

theorem Invariant.skip {roots pending seen : List K} {found : List V} {k : K}
    (h : Invariant read next key roots (k :: pending) seen found) (hk : k ∈ seen) :
    Invariant read next key roots pending seen found where
  sound k' hk' := h.sound k' (List.mem_cons_of_mem k hk')
  marked := h.marked
  read_found := h.read_found
  seen_iff := h.seen_iff
  roots_in k' hk' := by
    rcases h.roots_in k' hk' with hs | hp
    · exact Or.inl hs
    · rcases List.mem_cons.mp hp with rfl | hp
      · exact Or.inl hk
      · exact Or.inr hp
  closed v hv k' hk' := by
    rcases h.closed v hv k' hk' with hs | hp
    · exact Or.inl hs
    · rcases List.mem_cons.mp hp with rfl | hp
      · exact Or.inl hk
      · exact Or.inr hp

theorem Invariant.visit (hkey : ∀ k v, read k = .ok v → key v = k) {roots pending seen : List K}
    {found : List V} {k : K} {v : V} (h : Invariant read next key roots (k :: pending) seen found)
    (hr : read k = .ok v) :
    Invariant read next key roots ((next k v).reverse ++ pending) (k :: seen) (found ++ [v]) := by
  have hv := hkey k v hr
  have hmarked := h.sound k List.mem_cons_self
  have hmove : ∀ k', k' ∈ seen ∨ k' ∈ k :: pending →
      k' ∈ k :: seen ∨ k' ∈ (next k v).reverse ++ pending := by
    intro k' hk'
    rcases hk' with hs | hp
    · exact Or.inl (List.mem_cons_of_mem k hs)
    · rcases List.mem_cons.mp hp with rfl | hp
      · exact Or.inl List.mem_cons_self
      · exact Or.inr (List.mem_append_right _ hp)
  refine ⟨?_, ?_, ?_, ?_, fun k' hk' => hmove k' (h.roots_in k' hk'), ?_⟩
  · intro k' hk'
    rcases List.mem_append.mp hk' with hk' | hk'
    · exact .step hmarked hr (List.mem_reverse.mp hk')
    · exact h.sound k' (List.mem_cons_of_mem k hk')
  · intro w hw
    rcases List.mem_append.mp hw with hw | hw
    · exact h.marked w hw
    · rw [List.mem_singleton.mp hw, hv]
      exact hmarked
  · intro w hw
    rcases List.mem_append.mp hw with hw | hw
    · exact h.read_found w hw
    · rw [List.mem_singleton.mp hw, hv]
      exact hr
  · intro k'
    simp only [List.mem_cons, List.mem_append, h.seen_iff, List.not_mem_nil, or_false]
    constructor
    · rintro (rfl | ⟨w, hw, rfl⟩)
      · exact ⟨v, Or.inr rfl, hv⟩
      · exact ⟨w, Or.inl hw, rfl⟩
    · rintro ⟨w, hw | rfl, rfl⟩
      · exact Or.inr ⟨w, hw, rfl⟩
      · exact Or.inl hv
  · intro w hw k' hk'
    rcases List.mem_append.mp hw with hw | hw
    · exact hmove k' (h.closed w hw k' hk')
    · rw [List.mem_singleton.mp hw] at hk'
      rw [hv] at hk'
      exact Or.inr (List.mem_append_left _ (List.mem_reverse.mpr hk'))

theorem Invariant.collect [DecidableEq K] (hkey : ∀ k v, read k = .ok v → key v = k) {roots : List K} {pops : Nat}
    {pending seen : List K} {found vs : List V}
    (h : Invariant read next key roots pending seen found)
    (hc : collect endless read next pops pending seen found = .ok vs) :
    ∃ seen', Invariant read next key roots [] seen' vs := by
  induction pops generalizing pending seen found with
  | zero =>
    cases pending with
    | nil =>
      cases hc
      exact ⟨seen, h⟩
    | cons => cases hc
  | succ pops ih =>
    cases pending with
    | nil =>
      cases hc
      exact ⟨seen, h⟩
    | cons k pending =>
      simp only [Worklist.collect] at hc
      split at hc
      · rename_i hk
        exact ih (h.skip hk) hc
      · split at hc
        · cases hc
        · rename_i v hr
          exact ih (h.visit hkey hr) hc

theorem Invariant.seen_of_marked {roots seen : List K} {vs : List V}
    (h : Invariant read next key roots [] seen vs) {k : K} (hm : Marked read next roots k) :
    k ∈ seen := by
  induction hm with
  | root hk => exact (h.roots_in _ hk).resolve_right List.not_mem_nil
  | @step k k' w hk hw hk' ih =>
    obtain ⟨w', hw', rfl⟩ := (h.seen_iff k).mp ih
    obtain rfl : w' = w := Except.ok.inj ((h.read_found w' hw').symm.trans hw)
    exact (h.closed w' hw' k' hk').resolve_right List.not_mem_nil

/-- Every reachable key was read. -/
theorem read_of_collect [DecidableEq K] (hkey : ∀ k v, read k = .ok v → key v = k)
    {roots : List K} {pops : Nat} {vs : List V}
    (hc : collect endless read next pops roots [] [] = .ok vs) {k : K}
    (hm : Marked read next roots k) : ∃ v ∈ vs, key v = k ∧ read k = .ok v := by
  obtain ⟨seen, hinv⟩ := (Invariant.start key roots).collect hkey hc
  obtain ⟨v, hv, rfl⟩ := (hinv.seen_iff k).mp (hinv.seen_of_marked hm)
  exact ⟨v, hv, rfl, hinv.read_found v hv⟩

/-- The loop reads exactly the reachable records. -/
theorem mem_collect_iff [DecidableEq K] (hkey : ∀ k v, read k = .ok v → key v = k)
    {roots : List K} {pops : Nat} {vs : List V}
    (hc : collect endless read next pops roots [] [] = .ok vs) (v : V) :
    v ∈ vs ↔ Marked read next roots (key v) ∧ read (key v) = .ok v := by
  obtain ⟨seen, hinv⟩ := (Invariant.start key roots).collect hkey hc
  constructor
  · exact fun hv => ⟨hinv.marked v hv, hinv.read_found v hv⟩
  · rintro ⟨hm, hr⟩
    obtain ⟨w, hw, -, hrw⟩ := read_of_collect hkey hc hm
    rw [hr] at hrw
    cases hrw
    exact hw

/-- What a reader that succeeds more often reaches is reached by a loop that ended well. -/
theorem Marked.of_collect [DecidableEq K] {read' : K → Except E V}
    (hkey : ∀ k v, read k = .ok v → key v = k) (hread : ∀ k v, read k = .ok v → read' k = .ok v)
    {roots : List K} {pops : Nat} {vs : List V}
    (hc : collect endless read next pops roots [] [] = .ok vs) {k : K}
    (h : Marked read' next roots k) : Marked read next roots k := by
  induction h with
  | root hk => exact .root hk
  | step _ hr hk ih =>
    obtain ⟨v, -, -, hv⟩ := read_of_collect hkey hc ih
    rw [hread _ _ hv] at hr
    cases hr
    exact .step ih hv hk

/-- A loop whose reader keeps more of each record visits the same keys. -/
theorem collect_map [DecidableEq K] {W : Type w'} {read' : K → Except E W}
    (next' : K → W → List K) (f : V → W) (hread : ∀ k v, read k = .ok v → read' k = .ok (f v))
    (hnext : ∀ k v, next' k (f v) = next k v) {pops : Nat} {pending seen : List K}
    {found vs : List V} (hc : collect endless read next pops pending seen found = .ok vs) :
    collect endless read' next' pops pending seen (found.map f) = .ok (vs.map f) := by
  induction pops generalizing pending seen found with
  | zero =>
    cases pending with
    | nil =>
      cases hc
      rfl
    | cons => cases hc
  | succ pops ih =>
    cases pending with
    | nil =>
      cases hc
      rfl
    | cons k pending =>
      simp only [collect] at hc ⊢
      split at hc
      · rename_i hk
        rw [if_pos hk]
        exact ih hc
      · rename_i hk
        rw [if_neg hk]
        split at hc
        · cases hc
        · rename_i v hr
          rw [hread k v hr]
          simp only [hnext]
          have hrest := ih hc
          rw [List.map_append, List.map_singleton] at hrest
          exact hrest

/-! The number of pops. -/

/-- How many keys a stored record pushes. -/
def pushes (read : K → Except E V) (next : K → V → List K) (k : K) : Nat :=
  match read k with
  | .ok v => (next k v).length
  | .error _ => 0

/-- All that is ever pushed: the roots and what the stored records push once each. -/
def budget (read : K → Except E V) (next : K → V → List K) (stored roots : List K) : Nat :=
  roots.length + (stored.map (pushes read next)).sum

theorem sum_filter_cons_le [DecidableEq K] (stored seen : List K) (k : K) (f : K → Nat) :
    ((stored.filter (· ∉ k :: seen)).map f).sum ≤ ((stored.filter (· ∉ seen)).map f).sum := by
  induction stored with
  | nil => simp
  | cons x stored ih =>
    by_cases hx : x = k
    · by_cases hxs : x ∈ seen
      · simpa [List.filter_cons, hx, hx ▸ hxs] using ih
      · have hks : k ∉ seen := hx ▸ hxs
        simp only [List.mem_cons, not_or] at ih
        simp only [List.filter_cons, List.mem_cons, hx, hks, not_or, not_true_eq_false, false_and,
          decide_false, Bool.false_eq_true, if_false, not_false_eq_true, decide_true, if_true,
          List.map_cons, List.sum_cons]
        omega
    · by_cases hxs : x ∈ seen
      · simpa [List.filter_cons, hx, hxs] using ih
      · simpa [List.filter_cons, hx, hxs] using ih

theorem sum_filter_seen [DecidableEq K] {stored seen : List K} {k : K} (f : K → Nat) (hk : k ∈ stored)
    (hs : k ∉ seen) :
    f k + ((stored.filter (· ∉ k :: seen)).map f).sum ≤ ((stored.filter (· ∉ seen)).map f).sum := by
  induction stored with
  | nil => cases hk
  | cons x stored ih =>
    by_cases hx : x = k
    · subst hx
      have hsub := sum_filter_cons_le stored seen x f
      simp only [List.filter_cons, List.mem_cons, true_or, not_true_eq_false, decide_false,
        Bool.false_eq_true, if_false, hs, not_false_eq_true, decide_true, if_true, List.map_cons,
        List.sum_cons]
      simp only [List.mem_cons] at hsub
      omega
    · have hrest := ih ((List.mem_cons.mp hk).resolve_left fun h => hx h.symm)
      by_cases hxs : x ∈ seen
      · simpa [List.filter_cons, hx, hxs] using hrest
      · simp only [List.filter_cons, List.mem_cons, hx, hxs, or_self, not_false_eq_true,
          decide_true, if_true, List.map_cons, List.sum_cons] at hrest ⊢
        omega

/-- Only keys that push something need to be counted. -/
theorem collect_ok_of_pushing [DecidableEq K] {stored : List K}
    (hstored : ∀ k v, read k = .ok v → next k v ≠ [] → k ∈ stored) {pops : Nat}
    {pending seen : List K} {found : List V}
    (hread : ∀ k, Marked read next pending k → ∃ v, read k = .ok v)
    (hpops : pending.length + ((stored.filter (· ∉ seen)).map (pushes read next)).sum ≤ pops) :
    ∃ vs, collect endless read next pops pending seen found = .ok vs := by
  induction pops generalizing pending seen found with
  | zero =>
    cases pending with
    | nil => exact ⟨found, rfl⟩
    | cons => simp at hpops
  | succ pops ih =>
    cases pending with
    | nil => exact ⟨found, rfl⟩
    | cons k pending =>
      simp only [collect]
      simp only [List.length_cons] at hpops
      split
      · refine ih (fun k' hk' => hread k' ?_) (by omega)
        exact hk'.mono fun x hx => List.mem_cons_of_mem k hx
      · rename_i hk
        obtain ⟨v, hr⟩ := hread k (.root List.mem_cons_self)
        rw [hr]
        have hpush : pushes read next k = (next k v).length := by simp only [pushes, hr]
        have hsum : (next k v).length +
            ((stored.filter (· ∉ k :: seen)).map (pushes read next)).sum ≤
              ((stored.filter (· ∉ seen)).map (pushes read next)).sum := by
          by_cases hn : next k v = []
          · have hless := sum_filter_cons_le stored seen k (pushes read next)
            rw [hn, List.length_nil]
            omega
          · rw [← hpush]
            exact sum_filter_seen (pushes read next) (hstored k v hr hn) hk
        refine ih (fun k' hk' => hread k' ?_) ?_
        · refine hk'.trans fun x hx => ?_
          rcases List.mem_append.mp hx with hx | hx
          · exact .step (.root List.mem_cons_self) hr (List.mem_reverse.mp hx)
          · exact .root (List.mem_cons_of_mem k hx)
        · simp only [List.length_append, List.length_reverse]
          omega

theorem collect_ok [DecidableEq K] {stored : List K} (hstored : ∀ k v, read k = .ok v → k ∈ stored) {pops : Nat}
    {pending seen : List K} {found : List V}
    (hread : ∀ k, Marked read next pending k → ∃ v, read k = .ok v)
    (hpops : pending.length + ((stored.filter (· ∉ seen)).map (pushes read next)).sum ≤ pops) :
    ∃ vs, collect endless read next pops pending seen found = .ok vs :=
  collect_ok_of_pushing (fun k v hr _ => hstored k v hr) hread hpops

/-- If all reachable keys can be read, the loop ends well within its budget. -/
theorem collect_ok_of_readable [DecidableEq K] (endless : E) {stored roots : List K}
    (hstored : ∀ k v, read k = .ok v → k ∈ stored)
    (hread : ∀ k, Marked read next roots k → ∃ v, read k = .ok v) :
    ∃ vs, collect endless read next (budget read next stored roots) roots [] [] = .ok vs :=
  collect_ok hstored hread (by simp [budget])

end Loop

end Worklist
