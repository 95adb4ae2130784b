import AuruPm.Lib.UrlPath

/-!
# Project handles in request URLs

Each client puts the encoded handle behind `/v1/projects/`. All of them leave dots alone, so the
handles that are dot segments are not addressed, and the form encoding of the Java library writes a
space as a plus sign.
-/

namespace AuruPm

set_option autoImplicit false

open CodeUnits UrlPath

/-- Behind the base URL of a provider. -/
def projectsPath : List Char := "/v1/projects".toList

namespace Http

def isUnreserved (c : Char) : Bool := c.isAlphanum || c ∈ ['-', '.', '_', '~']

def encodePathSegment (value : List Char) : List Char := (utf8 value).flatMap (spellByte isUnreserved)

def projectRootUrl (baseUrl handle : List Char) : List Char :=
  baseUrl ++ projectsPath ++ '/' :: encodePathSegment handle

end Http

namespace Sdk

namespace Cpp

def isUnreserved (c : Char) : Bool :=
  ('A' ≤ c && c ≤ 'Z') || ('a' ≤ c && c ≤ 'z') || ('0' ≤ c && c ≤ '9') || c = '-' || c = '_' ||
    c = '.' || c = '~'

def urlEncode (value : List Char) : List Char := (utf8 value).flatMap (spellByte isUnreserved)

def projectBase (endpoint handle : List Char) : List Char :=
  endpoint ++ projectsPath ++ '/' :: urlEncode handle

end Cpp

namespace Java

/-- The characters that `URLEncoder` leaves alone. -/
def isSafe (c : Char) : Bool := c.isAlphanum || c ∈ ['.', '-', '*', '_']

/-- `URLEncoder` writes a form: a space becomes a plus sign. -/
def formByte (b : Nat) : List Char := if b = ' '.toNat then ['+'] else spellByte isSafe b

/-- `URLEncoder.encode` in UTF-8. -/
def urlEncoder (value : List Char) : List Char := (utf8 value).flatMap formByte

def projectBase (endpoint handle : List Char) : List Char :=
  endpoint ++ projectsPath ++ '/' :: urlEncoder handle

end Java

end Sdk

/-- The written segment reads as the handle, and in every request URL it is one segment behind
those of the base, whatever rules the parser follows. -/
structure Addresses (encode : List Char → List Char) (handle : List Char) : Prop where
  decodes : percentDecode (encode handle) = utf8 handle
  segment : ∀ (rules : Rules) (base : List Char) (rest : List (List Char)) (query : List Char),
    NoQuery base → (∀ s ∈ rest, Plain s) → IsQuery query →
      pathOf rules (base ++ projectsPath ++ '/' :: encode handle ++ joined rest ++ query) =
        pathOf rules (base ++ projectsPath) ++ encode handle :: rest

/-- A handle that is a dot segment. -/
def IsDots (handle : List Char) : Prop := handle = ['.'] ∨ handle = ['.', '.']

theorem plain_version : Plain ['v', '1'] where
  chars := by simp
  single rules := by cases rules <;> decide
  double rules := by cases rules <;> decide

theorem plain_projects : Plain "projects".toList where
  chars := by simp
  single rules := by cases rules <;> decide
  double rules := by cases rules <;> decide

theorem projectsPath_joined : projectsPath = joined [['v', '1'], "projects".toList] := rfl

theorem plain_addresses {segment : List Char} (hplain : Plain segment) (rules : Rules)
    {base query : List Char} {rest : List (List Char)} (hbase : NoQuery base)
    (hrest : ∀ s ∈ rest, Plain s) (hquery : IsQuery query) :
    pathOf rules (base ++ projectsPath ++ '/' :: segment ++ joined rest ++ query) =
      pathOf rules (base ++ projectsPath) ++ segment :: rest := by
  have hprefix : ∀ s ∈ [['v', '1'], "projects".toList], Plain s := by
    intro s hs
    rcases List.mem_cons.mp hs with rfl | hs
    · exact plain_version
    · rw [List.mem_singleton.mp hs]
      exact plain_projects
  have hall : ∀ s ∈ [['v', '1'], "projects".toList] ++ segment :: rest, Plain s := by
    intro s hs
    rcases List.mem_append.mp hs with hs | hs
    · exact hprefix s hs
    · rcases List.mem_cons.mp hs with rfl | hs
      · exact hplain
      · exact hrest s hs
  have htext : base ++ projectsPath ++ '/' :: segment ++ joined rest ++ query =
      base ++ joined ([['v', '1'], "projects".toList] ++ segment :: rest) ++ query := by
    simp [projectsPath_joined, joined]
  have hroot : pathOf rules (base ++ joined [['v', '1'], "projects".toList] ++ []) = _ :=
    pathOf_joined hbase hprefix (by simp) (Or.inl rfl)
  rw [List.append_nil, ← projectsPath_joined] at hroot
  rw [htext, pathOf_joined hbase hall (by simp) hquery, hroot, List.append_assoc]

theorem map_dots {handle : List Char} {means : Nat → Nat} {n : Nat}
    (hmeans : ∀ b, means b = '.'.toNat ↔ b = '.'.toNat)
    (h : (utf8 handle).map means = List.replicate n '.'.toNat) : handle = List.replicate n '.' := by
  apply utf8_injective
  have hbytes : utf8 handle = List.replicate n '.'.toNat := by
    apply List.eq_replicate_iff.mpr
    refine ⟨by simpa using congrArg List.length h, fun b hb => (hmeans b).mp ?_⟩
    exact List.eq_of_mem_replicate (h ▸ List.mem_map_of_mem hb)
  rw [hbytes]
  simp [utf8, scalars, utf8Units, List.flatMap_replicate]

section Encoders
variable {spell : Nat → List Char} {means : Nat → Nat} (encode : List Char → List Char)

/-- An encoder that spells bytes addresses the handles that are not dots and whose bytes it means. -/
theorem addresses_iff (hencode : ∀ value, encode value = (utf8 value).flatMap spell)
    (h : Spelling spell means) (hmeans : ∀ b, means b = '.'.toNat ↔ b = '.'.toNat)
    (hdot : spell '.'.toNat = ['.']) (handle : List Char) :
    Addresses encode handle ↔ ¬ IsDots handle ∧ (utf8 handle).map means = utf8 handle := by
  have hdecode : percentDecode (encode handle) = (utf8 handle).map means := by
    rw [hencode, h.decode_flatMap (utf8_lt handle)]
  constructor
  · intro haddress
    refine ⟨?_, hdecode.symm.trans haddress.decodes⟩
    have hnil : NoQuery [] := fun _ hc => nomatch hc
    have hroot := haddress.segment .rfc3986 [] [] [] hnil (fun _ hs => nomatch hs) (Or.inl rfl)
    rintro (rfl | rfl)
    · have hone : encode ['.'] = ['.'] := by rw [hencode]; exact (List.append_nil _).trans hdot
      rw [hone] at hroot
      exact absurd hroot (by decide)
    · have htwo : encode ['.', '.'] = ['.', '.'] := by
        rw [hencode]
        show spell '.'.toNat ++ (spell '.'.toNat ++ []) = _
        rw [hdot]
        rfl
      rw [htwo] at hroot
      exact absurd hroot (by decide)
  · rintro ⟨hnot, hsame⟩
    have hplain : Plain (encode handle) := by
      rw [hencode]
      apply h.plain (utf8_lt handle)
      · intro heq
        exact hnot (.inl (map_dots hmeans (n := 1) heq))
      · intro heq
        exact hnot (.inr (map_dots hmeans (n := 2) heq))
    exact ⟨hdecode.trans hsame, fun rules _ _ _ hbase hrest hquery =>
      plain_addresses hplain rules hbase hrest hquery⟩

end Encoders

/-- Handles that are addressed are told apart. -/
theorem Addresses.inj {encode : List Char → List Char} {handle handle' : List Char}
    (h : Addresses encode handle) (h' : Addresses encode handle') (heq : encode handle = encode handle') :
    handle = handle' :=
  utf8_injective (h.decodes.symm.trans ((congrArg percentDecode heq).trans h'.decodes))

theorem Http.spelling : Spelling (spellByte Http.isUnreserved) id :=
  Harmless.spelling (by decide +kernel)

theorem Sdk.Cpp.spelling : Spelling (spellByte Sdk.Cpp.isUnreserved) id :=
  Harmless.spelling (by decide +kernel)

/-- A space is read as a plus sign. -/
def Sdk.Java.means (b : Nat) : Nat := if b = ' '.toNat then '+'.toNat else b

theorem Sdk.Java.spelling : Spelling Sdk.Java.formByte Sdk.Java.means := by
  have hsafe : Spelling (spellByte Sdk.Java.isSafe) id := Harmless.spelling (by decide +kernel)
  constructor
  · intro b hb rest
    rw [formByte, means]
    split
    · rfl
    · exact hsafe.decode b hb rest
  · intro b hb c hc
    rw [formByte] at hc
    split at hc
    · rw [List.mem_singleton.mp hc]
      decide
    · exact hsafe.chars b hb c hc

/-- Bytes below 128 are characters of their own. -/
theorem mem_utf8_ascii {b : Nat} (hb : b < 0x80) (text : List Char) :
    b ∈ utf8 text ↔ ∃ c ∈ text, c.toNat = b := by
  constructor
  · intro h
    obtain ⟨u, hu, hmem⟩ := List.mem_flatMap.mp h
    obtain ⟨c, hc, rfl⟩ := List.mem_map.mp hu
    refine ⟨c, hc, ?_⟩
    by_cases hascii : c.toNat < 0x80
    · rw [transparent_utf8.ascii _ hascii] at hmem
      exact (List.mem_singleton.mp hmem).symm
    · have := (transparent_utf8.wide _ (Nat.le_of_not_lt hascii)).2 b hmem
      omega
  · rintro ⟨c, hc, rfl⟩
    refine List.mem_flatMap.mpr ⟨c.toNat, List.mem_map_of_mem hc, ?_⟩
    rw [transparent_utf8.ascii _ hb]
    exact List.mem_cons_self

theorem Sdk.Java.map_means_iff (handle : List Char) :
    (utf8 handle).map Sdk.Java.means = utf8 handle ↔ ' ' ∉ handle := by
  have hspace : ' '.toNat ∈ utf8 handle ↔ ' ' ∈ handle := by
    rw [mem_utf8_ascii (by decide)]
    constructor
    · rintro ⟨c, hc, heq⟩
      rwa [← Char.toNat_inj.mp heq]
    · exact fun h => ⟨' ', h, rfl⟩
  have hself : (utf8 handle).map means = utf8 handle ↔ ∀ b ∈ utf8 handle, means b = id b := by
    rw [← List.map_inj_left, List.map_id]
  rw [← hspace, hself]
  constructor
  · intro h hmem
    exact absurd (h _ hmem) (by decide)
  · intro hnot b hb
    have hne : b ≠ ' '.toNat := fun heq => hnot (heq ▸ hb)
    exact if_neg hne

/-- Rust and C++ address every handle but the two dot segments, Java those of them without a
space. -/
theorem project_segments (handle : List Char) :
    (Addresses Http.encodePathSegment handle ↔ ¬ IsDots handle) ∧
      (Addresses Sdk.Cpp.urlEncode handle ↔ ¬ IsDots handle) ∧
      (Addresses Sdk.Java.urlEncoder handle ↔ ¬ IsDots handle ∧ ' ' ∉ handle) := by
  have hid : ∀ b, id b = '.'.toNat ↔ b = '.'.toNat := fun _ => Iff.rfl
  refine ⟨?_, ?_, ?_⟩
  · rw [addresses_iff Http.encodePathSegment (fun _ => rfl) Http.spelling hid (by decide), List.map_id]
    simp
  · rw [addresses_iff Sdk.Cpp.urlEncode (fun _ => rfl) Sdk.Cpp.spelling hid (by decide), List.map_id]
    simp
  · have hmeans : ∀ b, Sdk.Java.means b = '.'.toNat ↔ b = '.'.toNat := by
      intro b
      unfold Sdk.Java.means
      split
      · rename_i h
        rw [h]
        decide
      · exact Iff.rfl
    rw [addresses_iff Sdk.Java.urlEncoder (fun _ => rfl) Sdk.Java.spelling hmeans (by decide),
      Sdk.Java.map_means_iff]

/-- The handle of two dots leads out of the projects from every client, and a space reaches the
server as a plus sign from Java. -/
theorem dots_leave_projects :
    pathOf .whatwg (Http.projectRootUrl "host".toList "..".toList ++ "/head".toList) =
        ["v1".toList, "head".toList] ∧
      pathOf .whatwg (Sdk.Cpp.projectBase "host".toList "..".toList ++ "/head".toList) =
        ["v1".toList, "head".toList] ∧
      pathOf .whatwg (Sdk.Java.projectBase "host".toList "..".toList ++ "/head".toList) =
        ["v1".toList, "head".toList] ∧
      percentDecode (Sdk.Java.urlEncoder "a b".toList) = utf8 "a+b".toList := by
  decide +kernel

end AuruPm
