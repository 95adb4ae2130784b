import AuruPm.Lib.CodeUnits

/-!
# Segments of a URL path

Percent encoding, and what a URL parser makes of a path: it is cut at the query, split at its
separators and cleared of dot segments.
-/

namespace UrlPath

set_option autoImplicit false

open CodeUnits

/-! Percent encoding. -/

def hexDigit (n : Nat) : Char := Char.ofNat (if n < 10 then '0'.toNat + n else 'A'.toNat + (n - 10))

def hexValue (c : Char) : Option Nat :=
  if '0' ≤ c ∧ c ≤ '9' then some (c.toNat - '0'.toNat)
  else if 'A' ≤ c ∧ c ≤ 'F' then some (c.toNat - 'A'.toNat + 10)
  else if 'a' ≤ c ∧ c ≤ 'f' then some (c.toNat - 'a'.toNat + 10)
  else none

/-- A byte as its character, if it may stand for itself, or behind a percent sign. -/
def spellByte (keep : Char → Bool) (b : Nat) : List Char :=
  if keep (Char.ofNat b) then [Char.ofNat b] else ['%', hexDigit (b / 16), hexDigit (b % 16)]

/-- The bytes of a text whose other characters are percent encoded. -/
def percentDecode : List Char → List Nat
  | [] => []
  | '%' :: high :: low :: rest =>
    match hexValue high, hexValue low with
    | some h, some l => (16 * h + l) :: percentDecode rest
    | _, _ => '%'.toNat :: percentDecode (high :: low :: rest)
  | c :: rest => utf8Units c.toNat ++ percentDecode rest

theorem hexValue_hexDigit : ∀ n < 16, hexValue (hexDigit n) = some n := by decide

theorem percentDecode_cons {c : Char} (hc : c ≠ '%') (rest : List Char) :
    percentDecode (c :: rest) = utf8Units c.toNat ++ percentDecode rest := by
  rw [percentDecode]
  rintro high low _ rfl
  exact absurd rfl hc

theorem percentDecode_spell {b : Nat} (hb : b < 256) (rest : List Char) :
    percentDecode ('%' :: hexDigit (b / 16) :: hexDigit (b % 16) :: rest) = b :: percentDecode rest := by
  rw [percentDecode, hexValue_hexDigit _ (by omega), hexValue_hexDigit _ (by omega)]
  simp only
  congr 1
  omega

/-! Paths. -/

/-- How separators and dot segments are spelled: by RFC 3986, or as parsers of special schemes
take them. -/
inductive Rules where
  | rfc3986
  | whatwg
  deriving DecidableEq

def Rules.isSeparator : Rules → Char → Bool
  | .rfc3986, c => c = '/'
  | .whatwg, c => c = '/' || c = '\\'

def Rules.singleDots : Rules → List (List Char)
  | .rfc3986 => [['.']]
  | .whatwg => [['.'], ['%', '2', 'e'], ['%', '2', 'E']]

def Rules.doubleDots : Rules → List (List Char)
  | .rfc3986 => [['.', '.']]
  | .whatwg =>
    [['.', '.'], ['.', '%', '2', 'e'], ['.', '%', '2', 'E'], ['%', '2', 'e', '.'],
      ['%', '2', 'E', '.'], ['%', '2', 'e', '%', '2', 'e'], ['%', '2', 'e', '%', '2', 'E'],
      ['%', '2', 'E', '%', '2', 'e'], ['%', '2', 'E', '%', '2', 'E']]

section Resolve
variable (rules : Rules)

/-- A segment with more behind it. -/
def walk (path : List (List Char)) (s : List Char) : List (List Char) :=
  if s ∈ rules.doubleDots then path.dropLast else if s ∈ rules.singleDots then path else path ++ [s]

/-- Takes the segments on to a path. Dots at the end leave an empty segment. -/
def resolveDots : List (List Char) → List (List Char) → List (List Char)
  | path, [] => path
  | path, [last] =>
    if last ∈ rules.doubleDots then path.dropLast ++ [[]]
    else if last ∈ rules.singleDots then path ++ [[]]
    else path ++ [last]
  | path, s :: next :: rest => resolveDots (walk rules path s) (next :: rest)

/-- Up to the query or the fragment. -/
def pathText (text : List Char) : List Char := text.takeWhile fun c => c ≠ '?' && c ≠ '#'

/-- The segments of the path behind an authority. -/
def pathOf (text : List Char) : List (List Char) :=
  resolveDots rules [] ((pathText text).splitOnP rules.isSeparator).tail

end Resolve

/-- A segment that stays one. -/
structure Plain (s : List Char) : Prop where
  chars : ∀ c ∈ s, c ≠ '/' ∧ c ≠ '\\' ∧ c ≠ '?' ∧ c ≠ '#'
  single : ∀ rules : Rules, s ∉ rules.singleDots
  double : ∀ rules : Rules, s ∉ rules.doubleDots

section Plain
variable {rules : Rules} {s : List Char}

theorem Plain.separator (h : Plain s) : ∀ c ∈ s, rules.isSeparator c = false := by
  intro c hc
  obtain ⟨hslash, hback, _, _⟩ := h.chars c hc
  cases rules <;> simp [Rules.isSeparator, hslash, hback]

theorem resolveDots_append (path segments : List (List Char)) {more : List (List Char)}
    (hmore : more ≠ []) :
    resolveDots rules path (segments ++ more) =
      resolveDots rules (segments.foldl (walk rules) path) more := by
  induction segments generalizing path with
  | nil => rfl
  | cons s rest ih =>
    obtain ⟨next, tail, hnext⟩ := List.exists_cons_of_ne_nil
      (show rest ++ more ≠ [] by simp [hmore])
    rw [List.cons_append, hnext, resolveDots, ← hnext, ih, List.foldl_cons]

theorem resolveDots_plain (path : List (List Char)) {segments : List (List Char)}
    (h : ∀ s ∈ segments, Plain s) : resolveDots rules path segments = path ++ segments := by
  induction segments generalizing path with
  | nil => simp [resolveDots]
  | cons s rest ih =>
    have hs := h s List.mem_cons_self
    cases rest with
    | nil => rw [resolveDots, if_neg (hs.double _), if_neg (hs.single _)]
    | cons next tail =>
      have hwalk : walk rules path s = path ++ [s] := by
        rw [walk, if_neg (hs.double _), if_neg (hs.single _)]
      rw [resolveDots, hwalk, ih _ fun t ht => h t (List.mem_cons_of_mem _ ht), List.append_assoc]
      rfl

/-- Segments with a separator before each. -/
def joined (segments : List (List Char)) : List Char := segments.flatMap ('/' :: ·)

theorem splitOnP_joined (base : List Char) {segments : List (List Char)}
    (h : ∀ s ∈ segments, Plain s) :
    (base ++ joined segments).splitOnP rules.isSeparator =
      base.splitOnP rules.isSeparator ++ segments := by
  have hslash : rules.isSeparator '/' = true := by cases rules <;> rfl
  induction segments generalizing base with
  | nil => simp [joined]
  | cons s rest ih =>
    have hjoined : joined (s :: rest) = '/' :: (s ++ joined rest) := rfl
    rw [hjoined, List.splitOnP_append_cons _ _ hslash,
      ih _ fun t ht => h t (List.mem_cons_of_mem _ ht),
      List.splitOnP_eq_singleton (h s List.mem_cons_self).separator]
    rfl

/-- A text without a query. -/
def NoQuery (text : List Char) : Prop := ∀ c ∈ text, c ≠ '?' ∧ c ≠ '#'

def IsQuery (text : List Char) : Prop := text = [] ∨ ∃ rest, text = '?' :: rest

theorem noQuery_joined {segments : List (List Char)} (h : ∀ s ∈ segments, Plain s) :
    NoQuery (joined segments) := by
  intro c hc
  obtain ⟨s, hs, hc⟩ := List.mem_flatMap.mp hc
  rcases List.mem_cons.mp hc with rfl | hc
  · decide
  · exact ((h s hs).chars c hc).2.2

theorem pathText_append {text query : List Char} (h : NoQuery text) (hquery : IsQuery query) :
    pathText (text ++ query) = text := by
  have hall : ∀ c ∈ text, (c ≠ '?' && c ≠ '#') = true := by
    intro c hc
    simpa using h c hc
  rw [pathText, List.takeWhile_append_of_pos hall]
  rcases hquery with rfl | ⟨rest, rfl⟩ <;> simp

/-- Plain segments behind a base stay as they are. -/
theorem pathOf_joined {base query : List Char} {segments : List (List Char)} (hbase : NoQuery base)
    (hsegments : ∀ s ∈ segments, Plain s) (hne : segments ≠ []) (hquery : IsQuery query) :
    pathOf rules (base ++ joined segments ++ query) =
      (base.splitOnP rules.isSeparator).tail.foldl (walk rules) [] ++ segments := by
  have htext : NoQuery (base ++ joined segments) := by
    intro c hc
    rcases List.mem_append.mp hc with hc | hc
    · exact hbase c hc
    · exact noQuery_joined hsegments c hc
  rw [pathOf, pathText_append htext hquery, splitOnP_joined base hsegments,
    List.tail_append_of_ne_nil (List.splitOnP_ne_nil _ base), resolveDots_append _ _ hne,
    resolveDots_plain _ hsegments]

end Plain

theorem decode_singleDots {rules : Rules} {s : List Char} (h : s ∈ rules.singleDots) :
    percentDecode s = ['.'.toNat] := by
  have hall : ∀ rules : Rules, ∀ s ∈ rules.singleDots, percentDecode s = ['.'.toNat] := by
    intro rules
    cases rules <;> decide
  exact hall rules s h

theorem decode_doubleDots {rules : Rules} {s : List Char} (h : s ∈ rules.doubleDots) :
    percentDecode s = ['.'.toNat, '.'.toNat] := by
  have hall : ∀ rules : Rules, ∀ s ∈ rules.doubleDots,
      percentDecode s = ['.'.toNat, '.'.toNat] := by
    intro rules
    cases rules <;> decide
  exact hall rules s h

/-! Encoders that spell byte by byte. -/

/-- Each byte is spelled with harmless characters, and read as the byte it means. -/
structure Spelling (spell : Nat → List Char) (means : Nat → Nat) : Prop where
  decode : ∀ b < 256, ∀ rest, percentDecode (spell b ++ rest) = means b :: percentDecode rest
  chars : ∀ b < 256, ∀ c ∈ spell b, c ≠ '/' ∧ c ≠ '\\' ∧ c ≠ '?' ∧ c ≠ '#'

theorem Spelling.decode_flatMap {spell : Nat → List Char} {means : Nat → Nat}
    (h : Spelling spell means) {bytes : List Nat} (hbytes : ∀ b ∈ bytes, b < 256) :
    percentDecode (bytes.flatMap spell) = bytes.map means := by
  induction bytes with
  | nil => rfl
  | cons b rest ih =>
    rw [List.flatMap_cons, h.decode b (hbytes b List.mem_cons_self), List.map_cons,
      ih fun c hc => hbytes c (List.mem_cons_of_mem _ hc)]

/-- Characters that may stand for themselves. -/
def Harmless (keep : Char → Bool) : Prop :=
  ∀ b < 256, keep (Char.ofNat b) = true → b < 128 ∧
    Char.ofNat b ∉ ['%', '/', '\\', '?', '#']

instance (keep : Char → Bool) : Decidable (Harmless keep) :=
  Nat.decidableBallLT 256 fun b _ => keep (Char.ofNat b) = true → b < 128 ∧
    Char.ofNat b ∉ ['%', '/', '\\', '?', '#']

theorem hexDigit_chars : ∀ n < 16, hexDigit n ∉ ['/', '\\', '?', '#'] := by decide

theorem Harmless.spelling {keep : Char → Bool} (h : Harmless keep) : Spelling (spellByte keep) id where
  decode b hb rest := by
    rw [spellByte]
    split
    · rename_i hkeep
      obtain ⟨hascii, hnot⟩ := h b hb hkeep
      have hne : Char.ofNat b ≠ '%' := fun heq => hnot (heq ▸ List.mem_cons_self)
      rw [List.singleton_append, percentDecode_cons hne, toNat_ofNat_ascii hascii,
        transparent_utf8.ascii b hascii]
      rfl
    · exact percentDecode_spell hb rest
  chars b hb c hc := by
    rw [spellByte] at hc
    split at hc
    · rename_i hkeep
      rw [List.mem_singleton.mp hc]
      exact (show _ ∧ _ by simpa using (h b hb hkeep).2).2
    · have hdigit := hexDigit_chars
      simp only [List.mem_cons, List.not_mem_nil, or_false] at hc
      rcases hc with rfl | rfl | rfl
      · decide
      · simpa using hdigit (b / 16) (by omega)
      · simpa using hdigit (b % 16) (by omega)

theorem utf8_lt (text : List Char) : ∀ b ∈ utf8 text, b < 256 := by
  intro b hb
  obtain ⟨u, hu, hb⟩ := List.mem_flatMap.mp hb
  obtain ⟨c, _, rfl⟩ := List.mem_map.mp hu
  have hlt := toNat_lt c
  unfold utf8Units at hb
  split at hb
  · simp at hb
    omega
  · split at hb
    · simp at hb
      omega
    · split at hb <;> simp at hb <;> omega

/-- What is spelled is a plain segment unless it reads as dots. -/
theorem Spelling.plain {spell : Nat → List Char} {means : Nat → Nat} (h : Spelling spell means)
    {bytes : List Nat} (hbytes : ∀ b ∈ bytes, b < 256)
    (hsingle : bytes.map means ≠ ['.'.toNat]) (hdouble : bytes.map means ≠ ['.'.toNat, '.'.toNat]) :
    Plain (bytes.flatMap spell) where
  chars c hc := by
    obtain ⟨b, hb, hc⟩ := List.mem_flatMap.mp hc
    exact h.chars b (hbytes b hb) c hc
  single rules hdots := hsingle ((h.decode_flatMap hbytes).symm.trans (decode_singleDots hdots))
  double rules hdots := hdouble ((h.decode_flatMap hbytes).symm.trans (decode_doubleDots hdots))

end UrlPath
