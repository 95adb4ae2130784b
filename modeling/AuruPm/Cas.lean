import AuruPm.Formats

/-!
# Content-addressed storage

One store directory: the file under each hash and the time it was written. A file that does
not hash to its name is reported as corrupt. `gc` deletes files that nothing reaches, unless
they are younger than the grace period.
-/

namespace AuruPm

set_option autoImplicit false

open SortedAssoc

structure StoredFile (Bytes : Type) where
  stored : Bytes
  /-- Modification time in seconds since the epoch. -/
  modified : Nat
  deriving DecidableEq

/-- The files of a store in listing order. -/
abbrev Cas (Bytes Hash : Type) := List (Hash × StoredFile Bytes)

/-- Which file operations fail during a call, and with what. -/
structure CasFaults (Hash : Type) where
  read : Hash → Option String := fun _ => none
  list : Hash → Option String := fun _ => none
  stat : Hash → Bool := fun _ => false
  remove : Hash → Bool := fun _ => false

structure GcReport where
  freedBytes : Nat
  freedCount : Nat
  keptCount : Nat
  deriving DecidableEq

namespace Cas

variable {Bytes Hash : Type} [DecidableEq Hash] (F : Formats Bytes Hash)

def has (cas : Cas Bytes Hash) (hash : Hash) : Bool := (get? cas hash).isSome

def put (now : Nat) (cas : Cas Bytes Hash) (hash : Hash) (bytes : Bytes) :
    Except Error (Cas Bytes Hash) :=
  let computed := F.contentHash bytes
  if computed ≠ hash then
    .error (.other ("hash mismatch: caller said " ++ F.hashText hash ++ ", content hashed to " ++
      F.hashText computed))
  else if cas.has hash then .ok cas
  else .ok ((hash, ⟨F.encodeFrame bytes, now⟩) :: cas)

/-- The plaintext of a stored file: its frame decoded, or the file as it is. -/
def plain (hash : Hash) (file : StoredFile Bytes) : Option Bytes :=
  match F.decodeFrame file.stored with
  | some decoded =>
    if F.contentHash decoded = hash then some decoded
    else if F.contentHash file.stored = hash then some file.stored
    else none
  | none => if F.contentHash file.stored = hash then some file.stored else none

def get (faults : CasFaults Hash) (cas : Cas Bytes Hash) (hash : Hash) : Except Error Bytes :=
  match get? cas hash with
  | none => .error (.notFound (F.hashText hash))
  | some file =>
    match faults.read hash with
    | some detail => .error (.io detail)
    | none =>
      match plain F hash file with
      | some bytes => .ok bytes
      | none =>
        .error (.other ("blob " ++ F.hashText hash ++
          " is corrupt: stored bytes do not hash to their name"))

/-- A file that the sweep removes if the removal succeeds. -/
def expired (faults : CasFaults Hash) (now grace : Nat) (reachable : List Hash) (hash : Hash)
    (file : StoredFile Bytes) : Bool :=
  let modified := if faults.stat hash then 0 else file.modified
  decide (hash ∉ reachable) && decide (grace ≤ now - modified)

/-- The sweep, file by file: what is left, and the report unless the listing broke off. -/
def gc (faults : CasFaults Hash) (now grace : Nat) (reachable : List Hash) :
    Cas Bytes Hash → GcReport → Cas Bytes Hash × Except Error GcReport
  | [], report => ([], .ok report)
  | (hash, file) :: files, report =>
    match faults.list hash with
    | some detail => ((hash, file) :: files, .error (.io detail))
    | none =>
      if expired faults now grace reachable hash file then
        if faults.remove hash then
          let (left, result) := gc faults now grace reachable files report
          ((hash, file) :: left, result)
        else
          let size := if faults.stat hash then 0 else F.byteLength file.stored
          gc faults now grace reachable files
            { report with
              freedBytes := report.freedBytes + size
              freedCount := report.freedCount + 1 }
      else
        let (left, result) := gc faults now grace reachable files
          { report with keptCount := report.keptCount + 1 }
        ((hash, file) :: left, result)

variable {F}

@[simp] theorem get_ok_iff {cas : Cas Bytes Hash} {faults : CasFaults Hash} {hash : Hash}
    {bytes : Bytes} :
    cas.get F faults hash = .ok bytes ↔
      ∃ file, get? cas hash = some file ∧ faults.read hash = none ∧ plain F hash file = some bytes := by
  unfold get
  cases get? cas hash with
  | none => simp
  | some file =>
    cases faults.read hash with
    | some detail => simp
    | none => cases hp : plain F hash file <;> simp [hp]

theorem plain_hash {hash : Hash} {file : StoredFile Bytes} {bytes : Bytes}
    (h : plain F hash file = some bytes) : F.contentHash bytes = hash := by
  unfold plain at h
  split at h
  · split at h
    · cases h; assumption
    · split at h
      · cases h; assumption
      · cases h
  · split at h
    · cases h; assumption
    · cases h

/-- A file that is old enough for the sweep, and whose removal succeeds. -/
def Stale (faults : CasFaults Hash) (now grace : Nat) (hash : Hash) (file : StoredFile Bytes) :
    Prop :=
  faults.remove hash = false ∧ grace ≤ now - (if faults.stat hash then 0 else file.modified)

theorem stale_of_expired {faults : CasFaults Hash} {now grace : Nat} {reachable : List Hash}
    {hash : Hash} {file : StoredFile Bytes}
    (he : expired faults now grace reachable hash file = true)
    (hr : ¬ faults.remove hash = true) :
    ¬ (hash ∈ reachable ∨ ¬ Stale faults now grace hash file) := by
  simp only [expired, Bool.and_eq_true, decide_eq_true_eq] at he
  rintro (hm | hs)
  · exact he.1 hm
  · exact hs ⟨by simpa using hr, he.2⟩

/-- The sweep keeps every file that is reachable or not stale. -/
theorem get?_gc {faults : CasFaults Hash} {now grace : Nat} {reachable : List Hash}
    (cas : Cas Bytes Hash) (report : GcReport) {hash : Hash}
    (h : ∀ file, (hash, file) ∈ cas → hash ∈ reachable ∨ ¬ Stale faults now grace hash file) :
    get? (gc F faults now grace reachable cas report).1 hash = get? cas hash := by
  induction cas generalizing report with
  | nil => rfl
  | cons entry files ih =>
    obtain ⟨k, file⟩ := entry
    have hrest : ∀ file, (hash, file) ∈ files →
        hash ∈ reachable ∨ ¬ Stale faults now grace hash file :=
      fun file hf => h file (List.mem_cons_of_mem _ hf)
    have hleft : ∀ report, get? ((k, file) :: (gc F faults now grace reachable files report).1) hash =
        get? ((k, file) :: files) hash := by
      intro report
      by_cases hk : hash = k
      · subst hk
        simp
      · simp [get?_cons_of_ne hk, ih report hrest]
    simp only [gc]
    split
    · rfl
    · split
      · rename_i he
        split
        · exact hleft _
        · rename_i hr
          have hne : hash ≠ k := by
            rintro rfl
            exact stale_of_expired he hr (h file List.mem_cons_self)
          rw [ih _ hrest, get?_cons_of_ne hne]
      · exact hleft _

/-- Without failures the sweep ends well. -/
theorem gc_ok (F : Formats Bytes Hash) (now grace : Nat) (reachable : List Hash) (cas : Cas Bytes Hash) (report : GcReport) :
    ∃ result, (gc F {} now grace reachable cas report).2 = .ok result := by
  induction cas generalizing report with
  | nil => exact ⟨report, rfl⟩
  | cons entry files ih =>
    simp only [gc]
    split
    · exact ih _
    · exact ih _

/-- What a sweep that ended well left is reachable or not stale. -/
theorem left_of_gc {faults : CasFaults Hash} {now grace : Nat} {reachable : List Hash}
    {cas : Cas Bytes Hash} {report result : GcReport}
    (h : (gc F faults now grace reachable cas report).2 = .ok result)
    {entry : Hash × StoredFile Bytes}
    (he : entry ∈ (gc F faults now grace reachable cas report).1) :
    entry.1 ∈ reachable ∨ ¬ Stale faults now grace entry.1 entry.2 := by
  induction cas generalizing report with
  | nil => cases he
  | cons first files ih =>
    obtain ⟨k, file⟩ := first
    simp only [gc] at h he
    split at h
    · cases h
    · simp only [*] at he
      split at h
      · rename_i hold
        simp only [hold, if_true] at he
        split at h
        · rename_i hstuck
          simp only [hstuck, if_true] at he
          rcases List.mem_cons.mp he with rfl | he
          · exact Or.inr fun hs => by rw [hs.1] at hstuck; cases hstuck
          · exact ih h he
        · rename_i hfree
          simp only [hfree, Bool.false_eq_true, if_false] at he
          exact ih h he
      · rename_i hkept
        simp only [hkept, Bool.false_eq_true, if_false] at he
        rcases List.mem_cons.mp he with rfl | he
        · simp only [expired, Bool.and_eq_true, decide_eq_true_eq, not_and_or, not_not] at hkept
          exact hkept.imp id fun hy hs => hy hs.2
        · exact ih h he

/-- The sweep adds nothing: what it leaves under a hash was there. -/
theorem mem_of_mem_gc {faults : CasFaults Hash} {now grace : Nat} {reachable : List Hash}
    {cas : Cas Bytes Hash} {report : GcReport} {entry : Hash × StoredFile Bytes}
    (h : entry ∈ (gc F faults now grace reachable cas report).1) : entry ∈ cas := by
  induction cas generalizing report with
  | nil => exact h
  | cons first files ih =>
    obtain ⟨k, file⟩ := first
    simp only [gc] at h
    split at h
    · exact h
    · split at h
      · split at h
        · rcases List.mem_cons.mp h with rfl | h
          · exact List.mem_cons_self
          · exact List.mem_cons_of_mem _ (ih h)
        · exact List.mem_cons_of_mem _ (ih h)
      · rcases List.mem_cons.mp h with rfl | h
        · exact List.mem_cons_self
        · exact List.mem_cons_of_mem _ (ih h)

end Cas

end AuruPm
