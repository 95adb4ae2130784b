import AuruPm.Lib.CodeUnits
import AuruPm.RestoreTarget
import AuruPm.ServerIsolation

/-!
# Spellings of a hash

`Display` writes a hash with 64 lowercase digits. `FromStr` reads each two of them as a number
of the standard library, which may have upper case and a plus sign. So some hashes have more than
one text, and the server keeps blobs by their texts.
-/

namespace AuruPm

set_option autoImplicit false

open CodeUnits Restore

inductive ParseHashError where
  | badPrefix
  | badLength (got : Nat)
  | badHex
  deriving DecidableEq

def ParseHashError.text : ParseHashError → String
  | .badPrefix => "hash must be prefixed `blake3:`"
  | .badLength got => "hash hex section must be 64 chars, got " ++ toString got
  | .badHex => "non-hex character in hash"

/-- `char::to_digit(16)` of a byte. -/
def hexValue (u : Nat) : Option Nat :=
  if '0'.toNat ≤ u ∧ u ≤ '9'.toNat then some (u - '0'.toNat)
  else if 'a'.toNat ≤ u ∧ u ≤ 'f'.toNat then some (u - 'a'.toNat + 10)
  else if 'A'.toNat ≤ u ∧ u ≤ 'F'.toNat then some (u - 'A'.toNat + 10)
  else none

/-- The digits of a byte-sized number, the value so far in front. -/
def readDigits : Nat → List Nat → Option UInt8
  | value, [] => some (.ofNat value)
  | value, u :: us =>
    (hexValue u).bind fun digit =>
      if value * 16 + digit < 256 then readDigits (value * 16 + digit) us else none

/-- `u8::from_str_radix` to base 16. A plus sign may come first. -/
def fromStrRadix : List Nat → Option UInt8
  | [] => none
  | u :: us => if u = '+'.toNat then (if us = [] then none else readDigits 0 us) else readDigits 0 (u :: us)

/-- The loop over the chunks of two bytes. A chunk that is not UTF-8 has no digits either. -/
def hexPairs : List Nat → Option (List UInt8)
  | [] => some []
  | [u] => (fromStrRadix [u]).map ([·])
  | high :: low :: rest =>
    (fromStrRadix [high, low]).bind fun byte => (hexPairs rest).map (byte :: ·)

/-- `ContentHash::from_str` -/
def hashFromStr (s : String) : Except ParseHashError ContentHash :=
  match FlStudio.stripPrefix "blake3:" s with
  | none => .error .badPrefix
  | some digits =>
    let hex := utf8 digits.toList
    if hex.length ≠ 64 then .error (.badLength hex.length)
    else
      match hexPairs hex with
      | none => .error .badHex
      | some bytes => if h : bytes.length = 32 then .ok ⟨bytes, h⟩ else .error .badHex

/-- Pairs of digits of either case, or of a plus sign and a digit. -/
def LaxPairs : List Char → Prop
  | [] => True
  | [_] => False
  | high :: low :: rest =>
    (high = '+' ∨ (hexValue high.toNat).isSome) ∧ (hexValue low.toNat).isSome ∧ LaxPairs rest

/-- A plus sign, or a digit in upper case. -/
def isLax (c : Char) : Bool := c = '+' || decide ('A' ≤ c ∧ c ≤ 'F')

/-- A text that stands for a hash in a spelling of its own. -/
def IsAlias (s : String) : Prop :=
  ∃ digits : List Char, s = "blake3:" ++ String.ofList digits ∧ digits.length = 64 ∧
    LaxPairs digits ∧ ∃ c ∈ digits, isLax c = true

/-! Numbers of two digits. -/

theorem hexValue_lt {u n : Nat} (h : hexValue u = some n) : n < 16 := by
  unfold hexValue at h
  simp only [Char.reduceToNat] at h
  split at h
  · cases h
    omega
  · split at h
    · cases h
      omega
    · split at h
      · cases h
        omega
      · cases h

theorem ascii_of_hexValue {u : Nat} (h : (hexValue u).isSome) : u < 0x80 := by
  unfold hexValue at h
  simp only [Char.reduceToNat] at h
  split at h
  · omega
  · split at h
    · omega
    · split at h
      · omega
      · cases h

theorem hexValue_hexDigit : ∀ n < 16, hexValue (hexDigit n).toNat = some n := by decide

theorem not_isLax_hexDigit : ∀ n < 16, isLax (hexDigit n) = false := by decide

/-- A digit in lower case is the one that is written for its value. -/
theorem hexDigit_of_hexValue {c : Char} {n : Nat} (h : hexValue c.toNat = some n)
    (hc : isLax c = false) : hexDigit n = c := by
  have hlt := ascii_of_hexValue (Option.isSome_iff_exists.mpr ⟨n, h⟩)
  have hall : ∀ u < 0x80, (hexValue u).isSome → isLax (Char.ofNat u) = false →
      (hexValue u).map hexDigit = some (Char.ofNat u) := by decide
  have hthis := hall c.toNat hlt (Option.isSome_iff_exists.mpr ⟨n, h⟩)
  rw [Char.ofNat_toNat, h] at hthis
  exact Option.some.inj (hthis hc)

theorem readDigits_two {high low : Nat} (byte : UInt8) :
    readDigits 0 [high, low] = some byte ↔
      ∃ x y, hexValue high = some x ∧ hexValue low = some y ∧ byte = .ofNat (x * 16 + y) := by
  cases hx : hexValue high with
  | none => simp [readDigits, hx]
  | some x =>
    cases hy : hexValue low with
    | none => simp [readDigits, hx, hy]
    | some y =>
      have := hexValue_lt hx
      have := hexValue_lt hy
      simp only [readDigits, hx, hy, Option.bind_some, Nat.zero_mul, Nat.zero_add]
      rw [if_pos (by omega), if_pos (by omega)]
      simp [eq_comm]

theorem readDigits_one {low : Nat} (byte : UInt8) :
    readDigits 0 [low] = some byte ↔ ∃ y, hexValue low = some y ∧ byte = .ofNat y := by
  cases hy : hexValue low with
  | none => simp [readDigits, hy]
  | some y =>
    have := hexValue_lt hy
    simp only [readDigits, hy, Option.bind_some, Nat.zero_mul, Nat.zero_add]
    rw [if_pos (by omega)]
    simp [eq_comm]

/-- A pair is a number if its second unit is a digit, and its first one or a plus sign. -/
theorem fromStrRadix_isSome_iff {high low : Nat} :
    (fromStrRadix [high, low]).isSome ↔
      (high = '+'.toNat ∨ (hexValue high).isSome) ∧ (hexValue low).isSome := by
  rw [fromStrRadix]
  by_cases hplus : high = '+'.toNat
  · simp only [hplus, if_true, List.cons_ne_nil, if_false, true_or, true_and,
      Option.isSome_iff_exists, readDigits_one]
    constructor
    · rintro ⟨_, y, hy, _⟩
      exact ⟨y, hy⟩
    · rintro ⟨y, hy⟩
      exact ⟨_, y, hy, rfl⟩
  · simp only [hplus, if_false, false_or, Option.isSome_iff_exists, readDigits_two]
    constructor
    · rintro ⟨_, x, y, hx, hy, _⟩
      exact ⟨⟨x, hx⟩, y, hy⟩
    · rintro ⟨⟨x, hx⟩, y, hy⟩
      exact ⟨_, x, y, hx, hy, rfl⟩

/-- In lower case the number is written with the same two digits. -/
theorem digits_of_fromStrRadix {high low : Char} {byte : UInt8}
    (h : fromStrRadix [high.toNat, low.toNat] = some byte) (hhigh : isLax high = false)
    (hlow : isLax low = false) :
    [hexDigit (byte.toNat / 16), hexDigit (byte.toNat % 16)] = [high, low] := by
  have hplus : high.toNat ≠ '+'.toNat := by
    intro hp
    rw [Char.toNat_inj.mp hp] at hhigh
    cases hhigh
  rw [fromStrRadix, if_neg hplus] at h
  obtain ⟨x, y, hx, hy, rfl⟩ := (readDigits_two byte).mp h
  have hxlt := hexValue_lt hx
  have hylt := hexValue_lt hy
  have hbyte : (UInt8.ofNat (x * 16 + y)).toNat = x * 16 + y := by
    rw [UInt8.toNat_ofNat']
    omega
  rw [hbyte, show (x * 16 + y) / 16 = x by omega, show (x * 16 + y) % 16 = y by omega,
    hexDigit_of_hexValue hx hhigh, hexDigit_of_hexValue hy hlow]

theorem fromStrRadix_digits (byte : UInt8) :
    fromStrRadix [(hexDigit (byte.toNat / 16)).toNat, (hexDigit (byte.toNat % 16)).toNat] =
      some byte := by
  have hlt := byte.toNat_lt
  have hplus : ∀ n < 16, (hexDigit n).toNat ≠ '+'.toNat := by decide
  rw [fromStrRadix, if_neg (hplus _ (by omega))]
  refine (readDigits_two byte).mpr ⟨_, _, hexValue_hexDigit _ (by omega),
    hexValue_hexDigit _ (by omega), ?_⟩
  rw [Nat.mul_comm, Nat.div_add_mod, UInt8.ofNat_toNat]

/-! The pairs of a text. -/

theorem hexPairs_isSome_iff {digits : List Char} (heven : digits.length % 2 = 0) :
    (hexPairs (scalars digits)).isSome ↔ LaxPairs digits := by
  induction digits using LaxPairs.induct with
  | case1 => simp [hexPairs, scalars, LaxPairs]
  | case2 => simp at heven
  | case3 high low rest ih =>
    have hrest : rest.length % 2 = 0 := by
      simp only [List.length_cons] at heven
      omega
    have hpair := @fromStrRadix_isSome_iff high.toNat low.toNat
    rw [Char.toNat_inj] at hpair
    have hiff : (hexPairs (scalars (high :: low :: rest))).isSome ↔
        (fromStrRadix [high.toNat, low.toNat]).isSome ∧ (hexPairs (scalars rest)).isSome := by
      change ((fromStrRadix [high.toNat, low.toNat]).bind fun byte =>
        (hexPairs (scalars rest)).map (byte :: ·)).isSome ↔ _
      cases fromStrRadix [high.toNat, low.toNat] <;> simp
    rw [hiff, hpair, ih hrest, LaxPairs, and_assoc]

theorem hexPairs_length {us : List Nat} {bytes : List UInt8} (heven : us.length % 2 = 0)
    (h : hexPairs us = some bytes) : 2 * bytes.length = us.length := by
  induction us using hexPairs.induct generalizing bytes with
  | case1 =>
    cases h
    rfl
  | case2 => simp at heven
  | case3 high low rest ih =>
    simp only [hexPairs, Option.bind_eq_some_iff, Option.map_eq_some_iff] at h
    obtain ⟨byte, _, more, hmore, rfl⟩ := h
    simp only [List.length_cons] at heven ⊢
    rw [← ih (by omega) hmore]
    omega

/-- A text of pairs is ASCII. -/
theorem ascii_of_hexPairs {us : List Nat} (heven : us.length % 2 = 0) (h : (hexPairs us).isSome) :
    ∀ u ∈ us, u < 0x80 := by
  induction us using hexPairs.induct with
  | case1 => simp
  | case2 => simp at heven
  | case3 high low rest ih =>
    simp only [List.length_cons] at heven
    obtain ⟨bytes, hbytes⟩ := Option.isSome_iff_exists.mp h
    simp only [hexPairs, Option.bind_eq_some_iff, Option.map_eq_some_iff] at hbytes
    obtain ⟨byte, hbyte, more, hmore, rfl⟩ := hbytes
    obtain ⟨hhigh, hlow⟩ := fromStrRadix_isSome_iff.mp (Option.isSome_iff_exists.mpr ⟨byte, hbyte⟩)
    intro u hu
    rcases List.mem_cons.mp hu with rfl | hu
    · rcases hhigh with rfl | hhigh
      · decide
      · exact ascii_of_hexValue hhigh
    · rcases List.mem_cons.mp hu with rfl | hu
      · exact ascii_of_hexValue hlow
      · exact ih (by omega) (Option.isSome_iff_exists.mpr ⟨more, hmore⟩) u hu

def pairsOf (bytes : List UInt8) : List Char :=
  bytes.flatMap fun b => [hexDigit (b.toNat / 16), hexDigit (b.toNat % 16)]

theorem length_pairsOf (bytes : List UInt8) : (pairsOf bytes).length = 2 * bytes.length := by
  simp [pairsOf, List.length_flatMap, Nat.mul_comm]

theorem hexPairs_pairsOf (bytes : List UInt8) : hexPairs (scalars (pairsOf bytes)) = some bytes := by
  induction bytes with
  | nil => rfl
  | cons byte bytes ih =>
    change hexPairs ((hexDigit (byte.toNat / 16)).toNat :: (hexDigit (byte.toNat % 16)).toNat ::
      scalars (pairsOf bytes)) = _
    rw [hexPairs, fromStrRadix_digits, ih]
    rfl

theorem not_isLax_pairsOf (bytes : List UInt8) : ∀ c ∈ pairsOf bytes, isLax c = false := by
  intro c hc
  obtain ⟨byte, _, hc⟩ := List.mem_flatMap.mp hc
  have hlt := byte.toNat_lt
  simp only [List.mem_cons, List.not_mem_nil, or_false] at hc
  rcases hc with rfl | rfl
  · exact not_isLax_hexDigit _ (by omega)
  · exact not_isLax_hexDigit _ (by omega)

/-- In lower case the text is the one that is written for its bytes. -/
theorem pairsOf_of_hexPairs {digits : List Char} {bytes : List UInt8}
    (heven : digits.length % 2 = 0) (h : hexPairs (scalars digits) = some bytes)
    (hlower : ∀ c ∈ digits, isLax c = false) : pairsOf bytes = digits := by
  induction digits using LaxPairs.induct generalizing bytes with
  | case1 =>
    cases h
    rfl
  | case2 => simp at heven
  | case3 high low rest ih =>
    simp only [List.length_cons] at heven
    simp only [scalars, List.map_cons, hexPairs, Option.bind_eq_some_iff,
      Option.map_eq_some_iff] at h
    obtain ⟨byte, hbyte, more, hmore, rfl⟩ := h
    have hpair := digits_of_fromStrRadix hbyte (hlower high (by simp)) (hlower low (by simp))
    have hrest := ih (by omega) hmore fun c hc => hlower c (by simp [hc])
    rw [pairsOf, List.flatMap_cons, hpair, ← pairsOf, hrest]
    rfl

/-! Texts of hashes. -/

theorem ascii_of_utf8 {text : List Char} (h : ∀ u ∈ utf8 text, u < 0x80) :
    utf8 text = scalars text := by
  refine transparent_utf8.flatMap_eq_self fun c hc => ?_
  by_contra hwide
  obtain ⟨hne, hunits⟩ := transparent_utf8.wide c (by omega)
  obtain ⟨u, us, hu⟩ := List.exists_cons_of_ne_nil hne
  have hmem : u ∈ utf8Units c := by rw [hu]; exact List.mem_cons_self
  have hlow := h u (List.mem_flatMap.mpr ⟨c, hc, hmem⟩)
  have hhigh := hunits u hmem
  omega

theorem hashDisplay_eq (hash : ContentHash) :
    hashDisplay hash = "blake3:" ++ String.ofList (pairsOf hash.1) := rfl

theorem stripPrefix_eq_some_iff (start text rest : String) :
    FlStudio.stripPrefix start text = some rest ↔ text = start ++ rest := by
  unfold FlStudio.stripPrefix
  have hlength : start.length = start.toList.length := rfl
  split
  · rename_i hprefix
    obtain ⟨tail, htail⟩ := List.isPrefixOf_iff_prefix.mp hprefix
    have htext : text = start ++ String.ofList tail := by
      rw [← String.toList_inj, String.toList_append, String.toList_ofList, htail]
    rw [hlength, ← htail, List.drop_left, Option.some.injEq, htext]
    constructor
    · rintro rfl
      rfl
    · intro h
      exact String.append_right_inj _ |>.mp h
  · rename_i hprefix
    simp only [reduceCtorEq, false_iff]
    rintro rfl
    exact hprefix (by simp)

/-- The texts that are read, and what as. -/
theorem hashFromStr_ok_iff {s : String} {hash : ContentHash} :
    hashFromStr s = .ok hash ↔ ∃ digits : List Char, s = "blake3:" ++ String.ofList digits ∧
      digits.length = 64 ∧ hexPairs (scalars digits) = some hash.1 := by
  constructor
  · intro h
    unfold hashFromStr at h
    split at h
    · cases h
    · rename_i digits hstrip
      simp only at h
      split at h
      · cases h
      · rename_i hlength
        rw [not_not] at hlength
        split at h
        · cases h
        · rename_i bytes hpairs
          split at h
          · cases h
            have hascii := ascii_of_utf8 (ascii_of_hexPairs (by omega)
              (Option.isSome_iff_exists.mpr ⟨bytes, hpairs⟩))
            rw [hascii] at hpairs hlength
            refine ⟨digits.toList, ?_, by simpa [scalars] using hlength, hpairs⟩
            rw [String.ofList_toList]
            exact (stripPrefix_eq_some_iff _ _ _).mp hstrip
          · cases h
  · rintro ⟨digits, rfl, hlength, hpairs⟩
    have heven : (scalars digits).length % 2 = 0 := by simp [scalars, hlength]
    have hascii : utf8 digits = scalars digits := transparent_utf8.flatMap_eq_self
      (ascii_of_hexPairs heven (Option.isSome_iff_exists.mpr ⟨_, hpairs⟩))
    have hunits : (scalars digits).length = 64 := by simpa [scalars] using hlength
    unfold hashFromStr
    rw [(stripPrefix_eq_some_iff _ _ _).mpr rfl]
    simp only [String.toList_ofList, hascii, hunits, ne_eq, not_true_eq_false, if_false, hpairs,
      hash.2, dif_pos]

theorem hashFromStr_display (hash : ContentHash) : hashFromStr (hashDisplay hash) = .ok hash :=
  hashFromStr_ok_iff.mpr ⟨pairsOf hash.1, hashDisplay_eq hash,
    by rw [length_pairsOf, hash.2], hexPairs_pairsOf hash.1⟩

/-- A text is read as a hash if and only if it is the text of the hash. -/
def OneSpelling (s : String) : Prop := ∀ hash, hashFromStr s = .ok hash ↔ s = hashDisplay hash

theorem alias_read {s : String} (h : IsAlias s) :
    ∃ hash, hashFromStr s = .ok hash ∧ s ≠ hashDisplay hash := by
  obtain ⟨digits, rfl, hlength, hpairs, c, hc, hlax⟩ := h
  obtain ⟨bytes, hbytes⟩ := Option.isSome_iff_exists.mp
    ((hexPairs_isSome_iff (by omega)).mpr hpairs)
  have h32 := hexPairs_length (by simp [scalars, hlength]) hbytes
  rw [show (scalars digits).length = 64 by simpa [scalars] using hlength] at h32
  refine ⟨⟨bytes, by omega⟩, hashFromStr_ok_iff.mpr ⟨digits, rfl, hlength, hbytes⟩, ?_⟩
  intro hsame
  rw [hashDisplay_eq, String.append_right_inj, ← String.toList_inj, String.toList_ofList,
    String.toList_ofList] at hsame
  rw [hsame] at hc
  rw [not_isLax_pairsOf bytes c hc] at hlax
  cases hlax

/-- The texts with one spelling are those that are not the other spelling of a hash. -/
theorem oneSpelling_iff (s : String) : OneSpelling s ↔ ¬ IsAlias s := by
  constructor
  · intro hone halias
    obtain ⟨hash, hread, hother⟩ := alias_read halias
    exact hother ((hone hash).mp hread)
  · intro hnot hash
    constructor
    · intro hread
      obtain ⟨digits, rfl, hlength, hpairs⟩ := hashFromStr_ok_iff.mp hread
      have hlower : ∀ c ∈ digits, isLax c = false := by
        intro c hc
        by_contra hlax
        exact hnot ⟨digits, rfl, hlength, (hexPairs_isSome_iff (by omega)).mp
          (Option.isSome_iff_exists.mpr ⟨_, hpairs⟩), c, hc, by simpa using hlax⟩
      rw [hashDisplay_eq, pairsOf_of_hexPairs (by omega) hpairs hlower]
    · rintro rfl
      exact hashFromStr_display hash

/-- The server keeps a blob under the text of the request: under another text of the same hash it
answers as before. -/
theorem getBlob_other_spelling {Bytes : Type} (c : Server.Config Bytes ContentHash)
    (owner : Server.Principal) (s : Server.State Bytes) (handle : String) {text other : String}
    (hother : other ≠ text) (body : Bytes) :
    Server.getBlob {} owner handle other
        (Server.putBlob c.F c.parseHash {} owner handle text body s).1 =
      Server.getBlob {} owner handle other s := by
  rcases Server.putBlob_cases c {} owner s handle text body with
    ⟨response, -, heq⟩ | ⟨project, written, found, -, hwritten, heq⟩
  · rw [heq]
  rw [heq, Server.mutatePersisted_done {} written _ _ _ fun _ => rfl]
  have hprojects : written.db.projects = s.db.projects := by
    rcases hwritten with ⟨rfl, -⟩ | rfl
    · rfl
    · exact Server.withBlob_projects s text body
  have hfound : Server.projectFor written.db owner handle = some project := by
    rw [Server.projectFor, hprojects]
    exact found
  have hblob : written.blob? other = s.blob? other := by
    rcases hwritten with ⟨rfl, -⟩ | rfl
    · rfl
    · rw [Server.blob?_withBlob, if_neg hother]
  simp only [Server.modify_found hfound]
  have hkept : (written.withProject owner handle
      { project with blobs := SortedAssoc.insertKey text project.blobs }).blob? other =
        written.blob? other := rfl
  unfold Server.getBlob
  rw [found, Server.readBlob_quiet, Server.readBlob_quiet, hkept, hblob]
  simp only [Server.State.withProject, Server.projectFor, SortedAssoc.get?_insert, if_true,
    SortedAssoc.mem_insertKey, hother, false_or]

/-- Digits in upper case. -/
theorem upperCase_alias : ¬ OneSpelling ("blake3:" ++ String.ofList (List.replicate 64 'A')) := by
  intro h
  have hread : hashFromStr ("blake3:" ++ String.ofList (List.replicate 64 'A')) =
      .ok ⟨List.replicate 32 170, by decide⟩ := by decide +kernel
  exact absurd ((h _).mp hread) (by decide +kernel)

end AuruPm
