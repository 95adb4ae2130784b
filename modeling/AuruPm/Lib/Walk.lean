import Mathlib.Data.List.Perm.Subperm

/-!
# Walking a chain of records

A loop reads the record of a key, then goes on to the key that the record names, until there
is none or a stop key has been read. `walk` runs it with a bound on the rounds. `Chain` says
what it reads, free of the bound.
-/

namespace Walk

set_option autoImplicit false

universe u v w

variable {K : Type u} {V : Type v} {E : Type w}

section Loop
variable (endless : E) (read : K → Except E V) (next : V → Option K) (stop : K → Bool)

/-- The loop, for at most so many rounds. -/
def walk : Nat → Option K → Except E (List V)
  | _, none => .ok []
  | 0, some _ => .error endless
  | rounds + 1, some k =>
    match read k with
    | .error e => .error e
    | .ok v =>
      if stop k = true then .ok [v]
      else
        match walk rounds (next v) with
        | .error e => .error e
        | .ok vs => .ok (v :: vs)

/-- The records that the loop reads from this key, when it ends. -/
inductive Chain : Option K → List V → Prop
  | nil : Chain none []
  | stop {k : K} {v : V} (hr : read k = .ok v) (hs : stop k = true) : Chain (some k) [v]
  | cons {k : K} {v : V} {vs : List V} (hr : read k = .ok v) (hs : stop k = false)
      (rest : Chain (next v) vs) : Chain (some k) (v :: vs)

variable {endless read next stop}

theorem Chain.unique {start : Option K} {vs ws : List V} (h : Chain read next stop start vs)
    (h' : Chain read next stop start ws) : vs = ws := by
  induction h generalizing ws with
  | nil =>
    cases h'
    rfl
  | stop hr hs =>
    cases h' with
    | stop hr' _ => rw [hr] at hr'; cases hr'; rfl
    | cons _ hs' => rw [hs] at hs'; cases hs'
  | cons hr hs _ ih =>
    cases h' with
    | stop _ hs' => rw [hs] at hs'; cases hs'
    | cons hr' _ rest' =>
      rw [hr] at hr'
      cases hr'
      rw [ih rest']

theorem walk_ok_iff {rounds : Nat} {start : Option K} {vs : List V} :
    walk endless read next stop rounds start = .ok vs ↔
      Chain read next stop start vs ∧ vs.length ≤ rounds := by
  induction rounds generalizing start vs with
  | zero =>
    cases start with
    | none =>
      simp only [walk, Except.ok.injEq]
      constructor
      · rintro rfl
        exact ⟨.nil, by simp⟩
      · rintro ⟨h, _⟩
        cases h
        rfl
    | some k =>
      simp only [walk, reduceCtorEq, false_iff, not_and]
      intro h
      cases h <;> simp
  | succ rounds ih =>
    cases start with
    | none =>
      simp only [walk, Except.ok.injEq]
      constructor
      · rintro rfl
        exact ⟨.nil, by simp⟩
      · rintro ⟨h, _⟩
        cases h
        rfl
    | some k =>
      constructor
      · intro h
        simp only [walk] at h
        split at h
        · cases h
        · rename_i v hr
          split at h
          · rename_i hs
            cases h
            exact ⟨.stop hr hs, by simp⟩
          · rename_i hs
            split at h
            · cases h
            · rename_i ws hw
              cases h
              obtain ⟨hc, hlen⟩ := ih.mp hw
              exact ⟨.cons hr (by simpa using hs) hc, by simpa using hlen⟩
      · rintro ⟨h, hlen⟩
        cases h with
        | stop hr hs => simp [walk, hr, hs]
        | cons hr hs rest =>
          have hw := ih.mpr ⟨rest, by simpa using hlen⟩
          simp [walk, hr, hs, hw]

end Loop

section Keys
variable {endless : E} {read : K → Except E V} {next : V → Option K} {stop : K → Bool} {key : V → K}

/-- The chain from any record of a chain is the rest of it. -/
theorem Chain.drop {start : Option K} {before after : List V} {v : V}
    (hkey : ∀ k v, read k = .ok v → key v = k)
    (h : Chain read next stop start (before ++ v :: after)) :
    Chain read next stop (some (key v)) (v :: after) := by
  induction before generalizing start with
  | nil =>
    cases h with
    | stop hr hs => rw [hkey _ _ hr]; exact .stop hr hs
    | cons hr hs rest => rw [hkey _ _ hr]; exact .cons hr hs rest
  | cons w before ih =>
    rw [List.cons_append] at h
    generalize hl : before ++ v :: after = l at h
    cases h with
    | stop => simp at hl
    | cons hr hs rest => exact ih (hl ▸ rest)

/-- A chain that ends visits no key twice. -/
theorem Chain.nodup (hkey : ∀ k v, read k = .ok v → key v = k) {start : Option K} {vs : List V}
    (h : Chain read next stop start vs) : (vs.map key).Nodup := by
  induction h with
  | nil => exact List.nodup_nil
  | stop => simp
  | @cons k v vs hr hs rest ih =>
    rw [List.map_cons, List.nodup_cons]
    refine ⟨?_, ih⟩
    intro hmem
    obtain ⟨w, hw, hwk⟩ := List.mem_map.mp hmem
    obtain ⟨before, after, rfl⟩ := List.append_of_mem hw
    -- the same key again would be followed by the same records
    have hagain := rest.drop hkey
    rw [hwk, hkey k v hr] at hagain
    have hlen := congrArg List.length (hagain.unique (.cons hr hs rest))
    simp at hlen
    omega

theorem Chain.read_mem {start : Option K} {vs : List V} (h : Chain read next stop start vs)
    {v : V} (hv : v ∈ vs) : ∃ k, read k = .ok v := by
  induction h with
  | nil => cases hv
  | stop hr _ =>
    rw [List.mem_singleton.mp hv]
    exact ⟨_, hr⟩
  | cons hr _ _ ih =>
    rcases List.mem_cons.mp hv with rfl | hv
    · exact ⟨_, hr⟩
    · exact ih hv

/-- With a round for every stored key the bound is never met. -/
theorem walk_eq_of_chain (endless : E) (hkey : ∀ k v, read k = .ok v → key v = k) {stored : List K}
    (hstored : ∀ k v, read k = .ok v → k ∈ stored) {start : Option K} {vs : List V}
    (h : Chain read next stop start vs) :
    walk endless read next stop stored.length start = .ok vs := by
  refine walk_ok_iff.mpr ⟨h, ?_⟩
  have hsub : vs.map key ⊆ stored := by
    intro k hk
    obtain ⟨v, hv, rfl⟩ := List.mem_map.mp hk
    obtain ⟨k, hr⟩ := h.read_mem hv
    rw [hkey k v hr]
    exact hstored k v hr
  simpa using ((h.nodup hkey).subperm hsub).length_le

/-- A chain depends only on the records it reads. -/
theorem Chain.congr {read' : K → Except E V} {stop' : K → Bool} {start : Option K} {vs : List V}
    (h : Chain read next stop start vs) (hread : ∀ k v, read k = .ok v → v ∈ vs → read' k = .ok v)
    (hstop : ∀ k v, read k = .ok v → v ∈ vs → stop' k = stop k) : Chain read' next stop' start vs := by
  induction h with
  | nil => exact .nil
  | stop hr hs =>
    exact .stop (hread _ _ hr List.mem_cons_self) ((hstop _ _ hr List.mem_cons_self).trans hs)
  | cons hr hs _ ih =>
    refine .cons (hread _ _ hr List.mem_cons_self) ((hstop _ _ hr List.mem_cons_self).trans hs) ?_
    exact ih (fun k v hk hv => hread k v hk (List.mem_cons_of_mem _ hv))
      fun k v hk hv => hstop k v hk (List.mem_cons_of_mem _ hv)

/-- Stopping earlier, at a key on the chain, reads the records up to it. -/
theorem Chain.cut (hkey : ∀ k v, read k = .ok v → key v = k) (stop' : K → Bool)
    {start : Option K} {before after : List V} {v : V}
    (h : Chain read next stop start (before ++ v :: after))
    (hbefore : ∀ w ∈ before, stop' (key w) = false) (hv : stop' (key v) = true) :
    Chain read next stop' start (before ++ [v]) := by
  induction before generalizing start with
  | nil =>
    cases h with
    | stop hr _ => exact .stop hr (hkey _ _ hr ▸ hv)
    | cons hr _ _ => exact .stop hr (hkey _ _ hr ▸ hv)
  | cons w before ih =>
    rw [List.cons_append] at h
    generalize hl : before ++ v :: after = l at h
    cases h with
    | stop => simp at hl
    | cons hr hs rest =>
      exact .cons hr (hkey _ _ hr ▸ hbefore w List.mem_cons_self)
        (ih (hl ▸ rest) fun u hu => hbefore u (List.mem_cons_of_mem w hu))

end Keys

end Walk
