import AuruPm.Retention

/-!
# Stored objects

What the calls of a provider do to its stores. A sound folder holds only files that hash to
their names, and commits under their own ids. Calls other than a retention pass keep every
object as it was.
-/

namespace AuruPm

set_option autoImplicit false

open SortedAssoc

variable {Bytes Hash : Type} [DecidableEq Hash] {F : Formats Bytes Hash}

/-- A commit that carries its own id, with a timestamp that its encoding keeps. -/
def Commit.Genuine (F : Formats Bytes Hash) (commit : Commit Hash) : Prop :=
  commit.InRange ∧ FilesystemProvider.computeCommitId F commit = .ok commit.id

omit [DecidableEq Hash] in
theorem genuine_encoded {commit : Commit Hash} (h : commit.Genuine F) :
    ∃ bytes, F.encodeCommit commit = .ok bytes ∧ F.contentHash bytes = commit.id :=
  map_ok_iff.mp h.2

omit [DecidableEq Hash] in
/-- An id has one commit. -/
theorem genuine_ext (hF : F.Lawful) {c d : Commit Hash} (hc : c.Genuine F) (hd : d.Genuine F)
    (hid : c.id = d.id) : c = d := by
  obtain ⟨bytes, hcb, hch⟩ := genuine_encoded hc
  obtain ⟨bytes', hdb, hdh⟩ := genuine_encoded hd
  obtain rfl : bytes = bytes' := hF.hash_injective (hch.trans (hid.trans hdh.symm))
  obtain ⟨e, he, hec⟩ := hF.decode_commit c bytes hc.1 hcb
  obtain ⟨e', he', hed⟩ := hF.decode_commit d bytes hd.1 hdb
  rw [he] at he'
  cases he'
  rw [← hec, ← hed, hid]

/-- Every file hashes to its name, and every commit file holds the commit of that id. -/
structure FilesystemProvider.Sound (F : Formats Bytes Hash) (p : FilesystemProvider Bytes Hash) :
    Prop where
  blobs : ∀ e ∈ p.blobs, ∃ bytes, Cas.plain F e.1 e.2 = some bytes
  commits : ∀ e ∈ p.commits, ∃ commit bytes, Cas.plain F e.1 e.2 = some bytes ∧
    commit.Genuine F ∧ commit.id = e.1 ∧ F.encodeCommit commit = .ok bytes

/-- Everything that could be read is read as before. -/
structure FilesystemProvider.Keeps (F : Formats Bytes Hash) (p p' : FilesystemProvider Bytes Hash) :
    Prop where
  blobs : ∀ hash bytes, p.blobs.get F {} hash = .ok bytes → p'.blobs.get F {} hash = .ok bytes
  commits : ∀ id commit, p.readCommit F {} id = .ok commit → p'.readCommit F {} id = .ok commit

namespace FilesystemProvider

variable {p p' p'' : FilesystemProvider Bytes Hash}

theorem Keeps.refl (p : FilesystemProvider Bytes Hash) : p.Keeps F p :=
  ⟨fun _ _ h => h, fun _ _ h => h⟩

theorem Keeps.readManifest (h : p.Keeps F p') {commit : Commit Hash} {manifest : SampleManifest Hash}
    (hm : p.readManifest F {} commit = .ok manifest) :
    p'.readManifest F {} commit = .ok manifest := by
  obtain ⟨bytes, hb, hd⟩ := readManifest_ok_iff.mp hm
  exact readManifest_ok_iff.mpr ⟨bytes, h.blobs _ _ hb, hd⟩

theorem sound_start : (⟨.missing, .missing, [], []⟩ : FilesystemProvider Bytes Hash).Sound F :=
  ⟨fun _ h => absurd h List.not_mem_nil, fun _ h => absurd h List.not_mem_nil⟩

theorem get_of_plain {cas : Cas Bytes Hash} {hash : Hash} {file : StoredFile Bytes} {bytes : Bytes}
    (hf : get? cas hash = some file) (hp : Cas.plain F hash file = some bytes) :
    cas.get F {} hash = .ok bytes :=
  Cas.get_ok_iff.mpr ⟨file, hf, rfl, hp⟩

theorem get_hash {cas : Cas Bytes Hash} {hash : Hash} {bytes : Bytes}
    (h : cas.get F {} hash = .ok bytes) : F.contentHash bytes = hash := by
  obtain ⟨file, _, _, hp⟩ := Cas.get_ok_iff.mp h
  exact Cas.plain_hash hp

/-- A stored commit is read as the commit of its id. -/
theorem Sound.readCommit (hF : F.Lawful) (hs : p.Sound F) {id : Hash}
    (h : id ∈ p.commits.map Prod.fst) :
    ∃ commit, p.readCommit F {} id = .ok commit ∧ commit.Genuine F ∧ commit.id = id := by
  obtain ⟨file, hf⟩ := Option.isSome_iff_exists.mp (get?_isSome_iff.mpr h)
  obtain ⟨commit, bytes, hp, hg, hid, he⟩ := hs.commits _ (mem_of_get? hf)
  obtain ⟨d, hd, hdc⟩ := hF.decode_commit commit bytes hg.1 he
  refine ⟨commit, ?_, hg, hid⟩
  exact readCommit_ok_iff.mpr ⟨bytes, d, get_of_plain hf hp, hd, by rw [← hdc]; simp [hid]⟩

theorem Sound.genuine (hF : F.Lawful) (hs : p.Sound F) {id : Hash} {commit : Commit Hash}
    (h : p.readCommit F {} id = .ok commit) : commit.Genuine F ∧ commit.id = id := by
  obtain ⟨commit', h', hg, hid⟩ := hs.readCommit hF (readCommit_stored id commit h)
  rw [h] at h'
  cases h'
  exact ⟨hg, hid⟩

end FilesystemProvider

/-! Writing objects. -/

theorem Cas.put_cases {cas cas' : Cas Bytes Hash} {now : Nat} {hash : Hash} {bytes : Bytes}
    (h : cas.put F now hash bytes = .ok cas') : F.contentHash bytes = hash ∧
      ((cas' = cas ∧ ∃ file, get? cas hash = some file) ∨
        (cas' = (hash, ⟨F.encodeFrame bytes, now⟩) :: cas ∧ get? cas hash = none)) := by
  unfold put at h
  simp only at h
  split at h
  · cases h
  · rename_i hh
    refine ⟨not_not.mp hh, ?_⟩
    split at h
    · rename_i hhas
      cases h
      exact Or.inl ⟨rfl, Option.isSome_iff_exists.mp hhas⟩
    · rename_i hhas
      cases h
      exact Or.inr ⟨rfl, by simpa [has] using hhas⟩

theorem Cas.get?_put {cas cas' : Cas Bytes Hash} {now : Nat} {hash : Hash} {bytes : Bytes}
    (h : cas.put F now hash bytes = .ok cas') {k : Hash} {file : StoredFile Bytes}
    (hk : get? cas k = some file) : get? cas' k = some file := by
  rcases (put_cases h).2 with ⟨rfl, -⟩ | ⟨rfl, hnone⟩
  · exact hk
  · have hne : k ≠ hash := by
      rintro rfl
      rw [hnone] at hk
      cases hk
    rw [get?_cons_of_ne hne, hk]

theorem Cas.get_put {cas cas' : Cas Bytes Hash} {now : Nat} {hash k : Hash} {bytes content : Bytes}
    (h : cas.put F now hash bytes = .ok cas') (hk : cas.get F {} k = .ok content) :
    cas'.get F {} k = .ok content := by
  obtain ⟨file, hf, hr, hp⟩ := get_ok_iff.mp hk
  exact get_ok_iff.mpr ⟨file, get?_put h hf, hr, hp⟩

theorem Formats.Lawful.plain_encodeFrame (hF : F.Lawful) (bytes : Bytes) (now : Nat) :
    Cas.plain F (F.contentHash bytes) ⟨F.encodeFrame bytes, now⟩ = some bytes := by
  simp [Cas.plain, hF.decode_frame]

/-- What was put is got, also when the file was there already. -/
theorem Cas.get_put_self (hF : F.Lawful) {cas cas' : Cas Bytes Hash} {now : Nat} {hash : Hash}
    {bytes : Bytes} (hs : ∀ e ∈ cas, ∃ content, plain F e.1 e.2 = some content)
    (h : cas.put F now hash bytes = .ok cas') : cas'.get F {} hash = .ok bytes := by
  obtain ⟨rfl, ⟨rfl, file, hf⟩ | ⟨rfl, -⟩⟩ := put_cases h
  · obtain ⟨content, hp⟩ := hs _ (mem_of_get? hf)
    obtain rfl := hF.hash_injective (plain_hash hp)
    exact get_ok_iff.mpr ⟨file, hf, rfl, hp⟩
  · exact get_ok_iff.mpr ⟨_, by simp, rfl, hF.plain_encodeFrame bytes now⟩

namespace FilesystemProvider

variable {p p' : FilesystemProvider Bytes Hash}

theorem putBlob_spec (hF : F.Lawful) (hs : p.Sound F) {now : Nat} {hash : Hash} {bytes : Bytes}
    (h : p.putBlob F now hash bytes = .ok p') :
    p'.Sound F ∧ p.Keeps F p' ∧ p'.head = p.head ∧ p'.floor = p.floor ∧
      F.contentHash bytes = hash ∧ p'.blobs.get F {} hash = .ok bytes := by
  obtain ⟨blobs, hput, rfl⟩ := map_ok_iff.mp h
  refine ⟨⟨?_, hs.commits⟩, ⟨fun k content hk => Cas.get_put hput hk, fun _ _ hc => hc⟩, rfl, rfl,
    (Cas.put_cases hput).1, Cas.get_put_self hF hs.blobs hput⟩
  obtain ⟨rfl, ⟨rfl, -⟩ | ⟨rfl, -⟩⟩ := Cas.put_cases hput
  · exact hs.blobs
  · intro e he
    rcases List.mem_cons.mp he with rfl | he
    · exact ⟨bytes, hF.plain_encodeFrame bytes now⟩
    · exact hs.blobs e he

theorem putCommit_ok {now : Nat} {commit : Commit Hash} (h : p.putCommit F now commit = .ok p') :
    computeCommitId F commit = .ok commit.id ∧ ∃ bytes commits, F.encodeCommit commit = .ok bytes ∧
      p.commits.put F now commit.id bytes = .ok commits ∧ p' = { p with commits := commits } := by
  unfold putCommit at h
  rw [bind_ok_iff] at h
  obtain ⟨computed, hc, h⟩ := h
  split at h
  · cases h
  · rename_i hid
    simp only [bind_ok_iff, ofSerde_ok_iff, pure, Except.pure, Except.ok.injEq] at hc h
    obtain ⟨bytes, hb, commits, hput, rfl⟩ := h
    exact ⟨hc.trans (congrArg _ (not_not.mp hid)), bytes, commits, hb, hput, rfl⟩

theorem putCommit_spec (hF : F.Lawful) (hs : p.Sound F) {now : Nat} {commit : Commit Hash}
    (hr : commit.InRange) (h : p.putCommit F now commit = .ok p') :
    p'.Sound F ∧ p.Keeps F p' ∧ p'.head = p.head ∧ p'.floor = p.floor ∧ commit.Genuine F ∧
      p'.readCommit F {} commit.id = .ok commit := by
  obtain ⟨hid, bytes, commits, hb, hput, rfl⟩ := putCommit_ok h
  have hg : commit.Genuine F := ⟨hr, hid⟩
  have hsound : ({ p with commits := commits } : FilesystemProvider Bytes Hash).Sound F := by
    refine ⟨hs.blobs, ?_⟩
    obtain ⟨hhash, ⟨rfl, -⟩ | ⟨rfl, -⟩⟩ := Cas.put_cases hput
    · exact hs.commits
    · intro e he
      rcases List.mem_cons.mp he with rfl | he
      · exact ⟨commit, bytes, hhash ▸ hF.plain_encodeFrame bytes now, hg, rfl, hb⟩
      · exact hs.commits e he
  have hkeeps : p.Keeps F { p with commits := commits } := by
    refine ⟨fun _ _ h => h, fun id c hc => ?_⟩
    obtain ⟨content, d, hget, hd, rfl⟩ := readCommit_ok_iff.mp hc
    exact readCommit_ok_iff.mpr ⟨content, d, Cas.get_put hput hget, hd, rfl⟩
  refine ⟨hsound, hkeeps, rfl, rfl, hg, ?_⟩
  have hplain : ∀ e ∈ p.commits, ∃ content, Cas.plain F e.1 e.2 = some content := fun e he => by
    obtain ⟨_, content, hp, _⟩ := hs.commits e he
    exact ⟨content, hp⟩
  obtain ⟨d, hd, hdc⟩ := hF.decode_commit commit bytes hr hb
  exact readCommit_ok_iff.mpr ⟨bytes, d, Cas.get_put_self hF hplain hput, hd, hdc.symm⟩

/-! Advancing. -/

/-- Everything that a validated commit names is there. -/
theorem validateCommitObjects_ok {io : Faults Hash} {commit : Commit Hash}
    (h : p.validateCommitObjects F io commit = .ok ()) :
    ∃ manifest, p.readManifest F io commit = .ok manifest ∧
      ∀ hash ∈ commitBlobs commit manifest, p.blobs.has hash = true := by
  unfold validateCommitObjects at h
  split at h
  · cases h
  · rename_i hsnapshot
    split at h
    · cases h
    · rename_i hmetadata
      obtain ⟨manifest, hm, h⟩ := bind_ok_iff.mp h
      split at h
      · cases h
      · rename_i hentries
        refine ⟨manifest, hm, fun hash hmem => ?_⟩
        obtain ⟨bytes, hbytes, -⟩ := readManifest_ok_iff.mp hm
        obtain ⟨file, hfile, -⟩ := Cas.get_ok_iff.mp hbytes
        simp only [commitBlobs, List.mem_append, List.mem_cons, List.not_mem_nil, or_false,
          Option.mem_toList] at hmem
        rcases hmem with ((rfl | rfl) | hmeta) | hentry
        · simpa using hsnapshot
        · simp [Cas.has, hfile]
        · rw [hmeta, Option.filter_eq_none_iff] at hmetadata
          simpa using hmetadata
        · rw [List.find?_eq_none] at hentries
          simpa using hentries hash hentry

/-- `HEAD` was as expected; with a floor in place the new commit was read, and all that it names
is there. -/
theorem advanceHead_spec {io : Faults Hash} {fromHead : Option Hash} {toHead : Hash}
    (h : p.advanceHead F io fromHead toHead = .ok (p', .advanced)) :
    p.readHead io = .ok fromHead ∧ p' = { p with head := .names toHead } ∧
      (p.floor ≠ .missing → ∃ commit manifest, p.readCommit F io toHead = .ok commit ∧
        p.readManifest F io commit = .ok manifest ∧
          ∀ hash ∈ commitBlobs commit manifest, p.blobs.has hash = true) := by
  unfold advanceHead at h
  simp only [bind_ok_iff] at h
  obtain ⟨_, _, current, hcur, h⟩ := h
  split at h
  · cases h
  · rename_i hcurrent
    obtain rfl := not_not.mp hcurrent
    rw [bind_ok_iff] at h
    obtain ⟨floor, hfloor, h⟩ := h
    split at h
    · rw [bind_ok_iff] at h
      obtain ⟨commit, hc, h⟩ := h
      rw [bind_ok_iff] at h
      obtain ⟨_, hvalid, h⟩ := h
      cases h
      obtain ⟨manifest, hm, hall⟩ := validateCommitObjects_ok hvalid
      exact ⟨hcur, rfl, fun _ => ⟨commit, manifest, hc, hm, hall⟩⟩
    · rename_i hnone
      cases h
      refine ⟨hcur, rfl, fun hne => absurd ?_ hnone⟩
      obtain ⟨-, hf⟩ := orFail_ok_iff.mp hfloor
      cases hp : p.floor with
      | missing => exact absurd hp hne
      | blank => rw [hp] at hf; cases hf
      | garbled why => rw [hp] at hf; cases hf
      | names id => rw [hp] at hf; cases hf; rfl

end FilesystemProvider

end AuruPm
