import AuruPm.ControlFiles

/-!
# Reading a control file without the lock

`list_projects` reads `HEAD` while a writer that holds the lock may replace it. Up to three probes
of the reader fall between the steps of any number of replacements, one after the other.
-/

namespace AuruPm

set_option autoImplicit false

open Threads

namespace Control

/-- The files, and the replacement that is under way. -/
structure World where
  disk : Disk
  writer : Option (FileProg Unit)

/-- One step of the writers, who take turns under the lock. -/
inductive Moves (mode : Renaming) : World → World → Prop
  | begins (d : Disk) (body : String) : Moves mode ⟨d, none⟩ ⟨d, some (replaceControlFile body)⟩
  | acts {d d' : Disk} {op : FileOp} {next : Except IoError op.Answer → FileProg Unit}
      {r : Except IoError op.Answer} (h : Step mode d op r d') :
      Moves mode ⟨d, some (.call op next)⟩ ⟨d', some (next r)⟩
  | done (d : Disk) : Moves mode ⟨d, some (.done ())⟩ ⟨d, none⟩
  | fail (d : Disk) (e : IoError) : Moves mode ⟨d, some (.fail e)⟩ ⟨d, none⟩

/-- Steps of the writers, and the disks they come by. -/
inductive Others (mode : Renaming) : World → List Disk → World → Prop
  | none (w : World) : Others mode w [w.disk] w
  | move {w w' w'' : World} {seen : List Disk} (h : Moves mode w w')
      (rest : Others mode w' seen w'') : Others mode w (w.disk :: seen) w''

/-- A program that reads while the writers move: the disks it probes, those it comes by, and what
it ends with. -/
inductive Reading (mode : Renaming) {α : Type} :
    World → FileProg α → List Disk → List Disk → Except IoError α → Prop
  | others {w w' : World} {x : FileProg α} {probes seen : List Disk} {result : Except IoError α}
      (h : Moves mode w w') (rest : Reading mode w' x probes seen result) :
      Reading mode w x probes (w.disk :: seen) result
  | probe {w : World} {d' : Disk} {op : FileOp} {next : Except IoError op.Answer → FileProg α}
      {r : Except IoError op.Answer} {probes seen : List Disk} {result : Except IoError α}
      (h : Step mode w.disk op r d') (rest : Reading mode ⟨d', w.writer⟩ (next r) probes seen result) :
      Reading mode w (.call op next) (w.disk :: probes) (w.disk :: seen) result
  | done (w : World) (a : α) : Reading mode w (.done a) [] [w.disk] (.ok a)
  | fail (w : World) (e : IoError) : Reading mode w (.fail e) [] [w.disk] (.error e)

/-! Writers. -/

/-- The rest of a replacement of a file that is there. -/
def Writing (mode : Renaming) (d : Disk) (x : FileProg Unit) : Prop :=
  ∃ old body, old ≠ none ∧ Meets Eq (Step mode)
    (fun d' op => (d'.value = old ∨ d'.value = some body) ∧ Gentle mode d' op)
    (fun r d' => (d'.value = old ∨ d'.value = some body) ∧ (r = .ok () → d'.value = some body)) x d

/-- The file is there, and whoever writes it follows `replace_control_file`. -/
structure Sound (mode : Renaming) (w : World) : Prop where
  present : w.disk.value ≠ none
  writing : ∀ x, w.writer = some x → Writing mode w.disk x

theorem Moves.sound {mode : Renaming} {w w' : World} (h : Moves mode w w') (hw : Sound mode w) :
    Sound mode w' ∧ (w'.disk.backup = w.disk.backup ∨ w'.disk.backup = none ∨
      w'.disk.backup = w.disk.primary) := by
  cases h with
  | begins d body =>
    refine ⟨⟨hw.present, fun x hx => ?_⟩, Or.inl rfl⟩
    cases hx
    exact ⟨d.value, body, hw.present, replace_meets mode body d⟩
  | @acts d d' op next r hstep =>
    obtain ⟨old, body, hold, hmeets⟩ := hw.writing _ rfl
    obtain ⟨⟨-, hgentle⟩, hnext⟩ := hmeets d rfl
    obtain ⟨hvalue, hbackup⟩ := hgentle
    rw [hstep] at hvalue hbackup
    refine ⟨⟨?_, fun x hx => ?_⟩, hbackup⟩
    · exact Option.isSome_iff_ne_none.mp (hvalue (Option.isSome_iff_ne_none.mpr hw.present))
    · cases hx
      exact ⟨old, body, hold, hnext r d' hstep⟩
  | done d => exact ⟨⟨hw.present, fun _ hx => nomatch hx⟩, Or.inl rfl⟩
  | fail d e => exact ⟨⟨hw.present, fun _ hx => nomatch hx⟩, Or.inl rfl⟩

/-- What lies in the backup was the value of a disk among these. -/
def BackupHeld (d : Disk) (seen : List Disk) : Prop :=
  ∀ value, d.backup = some value → ∃ d' ∈ seen, d'.value = some value

theorem Others.sound {mode : Renaming} {w w' : World} {seen : List Disk}
    (h : Others mode w seen w') (hw : Sound mode w) : Sound mode w' := by
  induction h with
  | none w => exact hw
  | move hmove _ ih => exact ih (hmove.sound hw).1

theorem Others.last_mem {mode : Renaming} {w w' : World} {seen : List Disk}
    (h : Others mode w seen w') : w'.disk ∈ seen := by
  induction h with
  | none w => exact List.mem_singleton.mpr rfl
  | move _ _ ih => exact List.mem_cons_of_mem _ ih

/-- Only a value that the file holds is moved to the backup. -/
theorem Others.backupHeld {mode : Renaming} {w w' : World} {seen earlier : List Disk}
    (h : Others mode w seen w') (hw : Sound mode w) (hheld : BackupHeld w.disk earlier) :
    BackupHeld w'.disk (earlier ++ seen) := by
  induction h generalizing earlier with
  | none w =>
    intro value hvalue
    obtain ⟨d, hd, heq⟩ := hheld value hvalue
    exact ⟨d, List.mem_append_left _ hd, heq⟩
  | @move w w₁ w₂ seen hmove _ ih =>
    obtain ⟨hsound, hbackup⟩ := hmove.sound hw
    have hnext : BackupHeld w₁.disk (earlier ++ [w.disk]) := by
      intro value hvalue
      rcases hbackup with hkept | hnone | htaken
      · obtain ⟨d, hd, heq⟩ := hheld value (hkept ▸ hvalue)
        exact ⟨d, List.mem_append_left _ hd, heq⟩
      · rw [hnone] at hvalue
        cases hvalue
      · refine ⟨w.disk, List.mem_append_right _ (List.mem_singleton.mpr rfl), ?_⟩
        rw [Disk.value, ← htaken, hvalue]
        rfl
    have hlast := ih hsound hnext
    rwa [List.append_assoc, List.singleton_append] at hlast

/-! Probes. -/

theorem Reading.call_inv {mode : Renaming} {α : Type} {w : World} {op : FileOp}
    {next : Except IoError op.Answer → FileProg α} {probes seen : List Disk}
    {result : Except IoError α} (h : Reading mode w (.call op next) probes seen result) :
    ∃ w' probes' seen' seen'', Others mode w seen' w' ∧ probes = w'.disk :: probes' ∧
      Reading mode ⟨(perform mode w'.disk op).2, w'.writer⟩ (next (perform mode w'.disk op).1)
        probes' seen'' result ∧
      seen' ⊆ seen ∧ seen'' ⊆ seen := by
  generalize hx : (Prog.call op next : FileProg α) = x at h
  induction h with
  | others hmove _ ih =>
    obtain ⟨w', probes', seen', seen'', hothers, hprobes, hrest, hsub, hsub'⟩ := ih hx
    exact ⟨w', probes', _, seen'', .move hmove hothers, hprobes, hrest,
      List.cons_subset_cons _ hsub, List.subset_cons_of_subset _ hsub'⟩
  | @probe w d' op' next' r probes seen result hstep hrest _ =>
    cases hx
    refine ⟨w, probes, [w.disk], seen, .none w, rfl, ?_, ?_, List.subset_cons_self _ _⟩
    · rw [hstep]
      exact hrest
    · exact List.cons_subset_cons _ (List.nil_subset _)
  | done w a => cases hx
  | fail w e => cases hx

theorem Reading.done_inv {mode : Renaming} {α : Type} {w : World} {a : α}
    {probes seen : List Disk} {result : Except IoError α}
    (h : Reading mode w (.done a) probes seen result) : probes = [] ∧ result = .ok a := by
  generalize hx : (Prog.done a : FileProg α) = x at h
  induction h with
  | others _ _ ih => exact ih hx
  | probe => cases hx
  | done w a =>
    cases hx
    exact ⟨rfl, rfl⟩
  | fail w e => cases hx

/-- One read of a file: where it is made, and how the program goes on. -/
theorem Reading.read_inv {mode : Renaming} {α : Type} {w : World} {role : Role}
    {next : Except IoError String → FileProg α} {probes seen : List Disk}
    {result : Except IoError α} (h : Reading mode w (.call (.read role) next) probes seen result) :
    ∃ w' probes' seen' seen'', Others mode w seen' w' ∧ probes = w'.disk :: probes' ∧
      Reading mode w' (next (match w'.disk.get role with
        | some contents => .ok contents
        | none => .error .notFound)) probes' seen'' result ∧
      seen' ⊆ seen ∧ seen'' ⊆ seen := by
  obtain ⟨w', probes', seen', seen'', hothers, hprobes, hrest, hsub⟩ := h.call_inv
  refine ⟨w', probes', seen', seen'', hothers, hprobes, ?_, hsub⟩
  cases hget : w'.disk.get role with
  | none =>
    rw [show perform mode w'.disk (.read role) = (.error .notFound, w'.disk) by
      simp only [perform, hget]] at hrest
    exact hrest
  | some contents =>
    rw [show perform mode w'.disk (.read role) = (.ok contents, w'.disk) by
      simp only [perform, hget]] at hrest
    exact hrest

/-- A reader gets a value that the file held during the read exactly when its third probe, if it
comes to one, finds the file in place: when no replacement has moved it aside just then. -/
theorem reader_sees_value_iff {mode : Renaming} {d : Disk} {w : World}
    {before probes seen : List Disk} {result : Except IoError (Option String)}
    (hthere : d.value ≠ none) (hbefore : Others mode ⟨d, none⟩ before w)
    (h : Reading mode w readControlFile probes seen result) :
    (∃ value, result = .ok (some value) ∧ ∃ d' ∈ seen, d'.value = some value) ↔
      ∀ d', probes[2]? = some d' → d'.primary.isSome = true := by
  have hw : Sound mode w := hbefore.sound ⟨hthere, fun _ hx => by cases hx⟩
  obtain ⟨w₁, probes₁, seen₁, rest₁, hothers₁, rfl, h₁, hsub₁, hrest₁⟩ :=
    (show Reading mode w (.call (.read .primary) _) probes seen result from h).read_inv
  have hmem₁ : w₁.disk ∈ seen := hsub₁ hothers₁.last_mem
  have hw₁ := hothers₁.sound hw
  cases hprimary : w₁.disk.primary with
  | some value =>
    rw [show w₁.disk.get .primary = some value from hprimary] at h₁
    obtain ⟨rfl, rfl⟩ := h₁.done_inv
    refine iff_of_true ⟨value, rfl, w₁.disk, hmem₁, ?_⟩ (fun _ h => by cases h)
    rw [Disk.value, hprimary]
    rfl
  | none =>
    rw [show w₁.disk.get .primary = none from hprimary] at h₁
    obtain ⟨w₂, probes₂, seen₂, rest₂, hothers₂, rfl, h₂, hsub₂, hrest₂⟩ :=
      (show Reading mode w₁ (.call (.read .backup) _) probes₁ rest₁ result from h₁).read_inv
    -- Whatever the backup holds from here on was the file's value since the first probe.
    have hheld₁ : BackupHeld w₁.disk [w₁.disk] := by
      intro value hvalue
      refine ⟨w₁.disk, List.mem_singleton.mpr rfl, ?_⟩
      rw [Disk.value, hprimary, hvalue]
      rfl
    have hheld₂ := hothers₂.backupHeld hw₁ hheld₁
    have hw₂ := hothers₂.sound hw₁
    cases hbackup : w₂.disk.backup with
    | some value =>
      rw [show w₂.disk.get .backup = some value from hbackup] at h₂
      obtain ⟨rfl, rfl⟩ := h₂.done_inv
      obtain ⟨d', hd', hvalue⟩ := hheld₂ value hbackup
      refine iff_of_true ⟨value, rfl, d', ?_, hvalue⟩ (fun _ h => by cases h)
      rcases List.mem_append.mp hd' with hd' | hd'
      · rw [List.mem_singleton.mp hd']
        exact hmem₁
      · exact hrest₁ (hsub₂ hd')
    | none =>
      rw [show w₂.disk.get .backup = none from hbackup] at h₂
      obtain ⟨w₃, probes₃, seen₃, rest₃, hothers₃, rfl, h₃, hsub₃, hrest₃⟩ :=
        (show Reading mode w₂ (.call (.read .primary) _) probes₂ rest₂ result from h₂).read_inv
      cases hlast : w₃.disk.primary with
      | some value =>
        rw [show w₃.disk.get .primary = some value from hlast] at h₃
        obtain ⟨rfl, rfl⟩ := h₃.done_inv
        refine iff_of_true ⟨value, rfl, w₃.disk, ?_, ?_⟩ (fun d' hd' => ?_)
        · exact hrest₁ (hrest₂ (hsub₃ hothers₃.last_mem))
        · rw [Disk.value, hlast]
          rfl
        · cases hd'
          rw [hlast]
          rfl
      | none =>
        rw [show w₃.disk.get .primary = none from hlast] at h₃
        obtain ⟨rfl, rfl⟩ := h₃.done_inv
        refine iff_of_false ?_ (fun hplace => ?_)
        · rintro ⟨value, hvalue, _⟩
          cases hvalue
        · have hsome := hplace w₃.disk rfl
          rw [hlast] at hsome
          cases hsome

/-! Two replacements. -/

theorem Reading.after {mode : Renaming} {α : Type} {w w' : World} {x : FileProg α}
    {probes seen seen' : List Disk} {result : Except IoError α} (h : Others mode w seen w')
    (hr : Reading mode w' x probes seen' result) :
    Reading mode w x probes (seen.dropLast ++ seen') result := by
  induction h with
  | none w => exact hr
  | @move w w₁ w₂ seen hmove hrest ih =>
    have hne : seen ≠ [] := List.ne_nil_of_mem hrest.last_mem
    rw [List.dropLast_cons_of_ne_nil hne]
    exact .others hmove (ih hr)

/-- A replacement comes by a state with the old value aside, and goes on to the end. -/
theorem replacement_moves_aside (old body : String) : ∃ x seen seen',
    Others .refuses ⟨⟨some old, none, none⟩, none⟩ seen ⟨⟨none, some body, some old⟩, some x⟩ ∧
      Others .refuses ⟨⟨none, some body, some old⟩, some x⟩ seen'
        ⟨⟨some body, none, none⟩, none⟩ :=
  ⟨_, _, _,
    .move (.begins _ body) (.move (.acts rfl) (.move (.acts rfl) (.move (.acts rfl)
      (.move (.acts rfl) (.move (.acts rfl) (.none _)))))),
    .move (.acts rfl) (.move (.acts rfl) (.move (.done _) (.none _)))⟩

theorem aside_value_read : ∃ before probes seen w, Others .refuses
      ⟨⟨some "first", none, none⟩, none⟩ before w ∧
    Reading .refuses w readControlFile probes seen (.ok (some "first")) ∧
    ∃ value, (Except.ok (some "first") : Except IoError (Option String)) = .ok (some value) ∧
      ∃ d' ∈ seen, d'.value = some value := by
  obtain ⟨x, seen, -, haside, -⟩ := replacement_moves_aside "first" "second"
  have hread : Reading .refuses ⟨⟨none, some "second", some "first"⟩, some x⟩ readControlFile
      [⟨none, some "second", some "first"⟩, ⟨none, some "second", some "first"⟩]
      [⟨none, some "second", some "first"⟩, ⟨none, some "second", some "first"⟩,
        ⟨none, some "second", some "first"⟩] (.ok (some "first")) :=
    .probe rfl (.probe rfl (.done _ _))
  exact ⟨seen, _, _, _, haside, hread,
    (reader_sees_value_iff (by decide) haside hread).mpr (fun _ h => nomatch h)⟩

/-- A reader whose first and third probes fall into the windows of two replacements, and whose
second falls between them, reports a file absent that is there throughout. -/
theorem head_vanishes : ∃ probes seen,
    Reading .refuses ⟨⟨some "first", none, none⟩, none⟩ readControlFile probes seen (.ok none) ∧
      ¬∃ value, (Except.ok none : Except IoError (Option String)) = .ok (some value) ∧
        ∃ d' ∈ seen, d'.value = some value := by
  obtain ⟨x, _, _, haside, hend⟩ := replacement_moves_aside "first" "second"
  obtain ⟨y, _, _, haside', -⟩ := replacement_moves_aside "second" "third"
  have hread : Reading .refuses ⟨⟨some "first", none, none⟩, none⟩ readControlFile _ _
      (.ok none) :=
    Reading.after haside (.probe rfl (Reading.after hend (.probe rfl (Reading.after haside'
      (.probe rfl (.done _ _))))))
  exact ⟨_, _, hread, fun ⟨value, hvalue, _⟩ => nomatch hvalue⟩

end Control

end AuruPm
