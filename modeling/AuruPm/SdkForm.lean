import AuruPm.SdkReader
import AuruPm.Lib.SortedAssoc
import Mathlib.Data.List.Lex
import Mathlib.Data.List.TakeWhile
import Mathlib.Order.Fin.Basic

/-!
# Form coding of the C++ SDK

Percent encoding of byte strings, and the forms and queries made of them. Nothing that separates
the parts of a form is left in an encoded part, so a query gives back the map it was made from.
-/

namespace AuruPm

set_option autoImplicit false

open JsonValue

namespace Sdk.Cpp.OAuth

/-- A byte of a `std::string`. -/
abbrev Byte := Fin 256

def byte (c : Char) : Byte := Fin.ofNat 256 c.toNat

def isUnreserved (character : Byte) : Bool :=
  (byte 'A' ≤ character && character ≤ byte 'Z') || (byte 'a' ≤ character && character ≤ byte 'z') ||
    (byte '0' ≤ character && character ≤ byte '9') || character = byte '-' || character = byte '_' ||
    character = byte '.' || character = byte '~'

def kHex : List Byte := "0123456789ABCDEF".toList.map byte

def encodeByte (character : Byte) : List Byte :=
  if isUnreserved character then [character]
  else [byte '%', kHex.getD (character.val / 16) 0, kHex.getD (character.val % 16) 0]

def urlEncode (value : List Byte) : List Byte := value.flatMap encodeByte

/-- `strtol` in base 16, of texts too short to overflow. -/
def strtol (s : List Nat) : Int :=
  let s := s.dropWhile isSpace
  let negative := s.head? = some '-'.toNat
  let s := dropSign s
  let isPrefix := (s.take 2 = ascii "0x" || s.take 2 = ascii "0X") &&
    ((s.drop 2).head?.bind hexValue).isSome
  let s := if isPrefix then s.drop 2 else s
  let n := hexSum ((s.takeWhile fun u => (hexValue u).isSome).filterMap hexValue)
  if negative then -n else n

/-- The cast of a `long` to a `char`. -/
def toChar (n : Int) : Byte := Fin.ofNat 256 (n % 256).toNat

def urlDecode : List Byte → List Byte
  | [] => []
  | character :: rest =>
    if character = byte '%' ∧ 2 ≤ rest.length then
      toChar (strtol ((rest.take 2).map Fin.val)) :: urlDecode (rest.drop 2)
    else if character = byte '+' then byte ' ' :: urlDecode rest
    else character :: urlDecode rest
termination_by value => value.length
decreasing_by
  all_goals simp only [List.length_cons, List.length_drop]; omega

def appendParameter (encoded : List Byte) (parameter : List Byte × List Byte) : List Byte :=
  (if encoded ≠ [] then encoded ++ [byte '&'] else encoded) ++
    (urlEncode parameter.1 ++ [byte '='] ++ urlEncode parameter.2)

def form (parameters : List (List Byte × List Byte)) : List Byte :=
  parameters.foldl appendParameter []

/-- Stores what stands on both sides of the first `=`. -/
def addPair (parameters : List (List Byte × List Byte)) (pair : List Byte) :
    List (List Byte × List Byte) :=
  match pair.dropWhile (· ≠ byte '=') with
  | [] => parameters
  | _ :: value =>
    SortedAssoc.insert (urlDecode (pair.takeWhile (· ≠ byte '='))) (urlDecode value)
      parameters

/-- The loop over the pairs of a query. -/
def parsePairs (query : List Byte) (parameters : List (List Byte × List Byte)) :
    List (List Byte × List Byte) :=
  let parameters := addPair parameters (query.takeWhile (· ≠ byte '&'))
  match _h : query.dropWhile (· ≠ byte '&') with
  | [] => parameters
  | _ :: rest => parsePairs rest parameters
termination_by query.length
decreasing_by
  have hle := List.length_dropWhile_le (fun b => decide (b ≠ byte '&')) query
  rw [_h, List.length_cons] at hle
  omega

def parseQuery (url : List Byte) : List (List Byte × List Byte) :=
  match url.dropWhile (· ≠ byte '?') with
  | [] => []
  | _ :: query => parsePairs query []

/-! One string. -/

theorem unreserved_spec : ∀ c : Byte, isUnreserved c = true →
    c ≠ byte '&' ∧ c ≠ byte '=' ∧ c ≠ byte '%' ∧ c ≠ byte '+' := by
  decide +kernel

theorem kHex_spec : ∀ n : Fin 16, kHex.getD n.val 0 ≠ byte '&' ∧ kHex.getD n.val 0 ≠ byte '=' := by
  decide +kernel

theorem toChar_strtol : ∀ c : Byte,
    toChar (strtol [(kHex.getD (c.val / 16) 0).val, (kHex.getD (c.val % 16) 0).val]) = c := by
  decide +kernel

theorem urlDecode_append (c : Byte) (rest : List Byte) :
    urlDecode (encodeByte c ++ rest) = c :: urlDecode rest := by
  rw [encodeByte]
  split
  · rename_i hkeep
    obtain ⟨-, -, hpercent, hplus⟩ := unreserved_spec c hkeep
    rw [List.singleton_append, urlDecode, if_neg fun h => hpercent h.1, if_neg hplus]
  · rw [List.cons_append, urlDecode, if_pos ⟨rfl, Nat.le_add_left 2 _⟩]
    exact congrArg (· :: urlDecode rest) (toChar_strtol c)

theorem urlDecode_urlEncode (value : List Byte) : urlDecode (urlEncode value) = value := by
  induction value with
  | nil => rw [urlEncode, List.flatMap_nil, urlDecode]
  | cons c value ih =>
    rw [urlEncode, List.flatMap_cons, urlDecode_append]
    exact congrArg (c :: ·) ih

theorem mem_urlEncode {value : List Byte} {b : Byte} (h : b ∈ urlEncode value) :
    b ≠ byte '&' ∧ b ≠ byte '=' := by
  obtain ⟨c, -, hb⟩ := List.mem_flatMap.mp h
  rw [encodeByte] at hb
  split at hb
  · rename_i hkeep
    rw [List.mem_singleton.mp hb]
    exact ⟨(unreserved_spec c hkeep).1, (unreserved_spec c hkeep).2.1⟩
  · rcases List.mem_cons.mp hb with rfl | hb
    · decide
    rcases List.mem_cons.mp hb with rfl | hb
    · exact kHex_spec ⟨c.val / 16, by omega⟩
    · rw [List.mem_singleton.mp hb]
      exact kHex_spec ⟨c.val % 16, by omega⟩

/-! Forms. -/

/-- The text of one parameter. -/
def pairText (parameter : List Byte × List Byte) : List Byte :=
  urlEncode parameter.1 ++ [byte '='] ++ urlEncode parameter.2

theorem pairText_ne_nil (parameter : List Byte × List Byte) : pairText parameter ≠ [] := by
  simp [pairText]

theorem foldl_appendParameter {encoded : List Byte} (h : encoded ≠ [])
    (parameters : List (List Byte × List Byte)) :
    parameters.foldl appendParameter encoded =
      encoded ++ parameters.flatMap fun parameter => byte '&' :: pairText parameter := by
  induction parameters generalizing encoded with
  | nil => simp
  | cons parameter parameters ih =>
    have hstep : appendParameter encoded parameter = encoded ++ byte '&' :: pairText parameter := by
      rw [appendParameter, if_pos h, List.append_assoc]
      rfl
    rw [List.foldl_cons, ih (by rw [hstep]; simp), hstep, List.flatMap_cons, List.append_assoc]

theorem form_cons (parameter : List Byte × List Byte)
    (parameters : List (List Byte × List Byte)) :
    form (parameter :: parameters) =
      pairText parameter ++ parameters.flatMap fun parameter => byte '&' :: pairText parameter :=
  foldl_appendParameter (pairText_ne_nil parameter) parameters

/-- Reading up to a separator that no part of the text before it is. -/
theorem splitAt_separator {separator : Byte} {text : List Byte} (h : ∀ b ∈ text, b ≠ separator)
    (rest : List Byte) :
    (text ++ separator :: rest).takeWhile (· ≠ separator) = text ∧
      (text ++ separator :: rest).dropWhile (· ≠ separator) = separator :: rest := by
  have hall : ∀ b ∈ text, decide (b ≠ separator) = true := fun b hb => decide_eq_true (h b hb)
  rw [List.takeWhile_append_of_pos hall, List.dropWhile_append_of_pos hall]
  simp

theorem addPair_pairText (parameters : List (List Byte × List Byte))
    (parameter : List Byte × List Byte) :
    addPair parameters (pairText parameter) =
      SortedAssoc.insert parameter.1 parameter.2 parameters := by
  have hname : ∀ b ∈ urlEncode parameter.1, b ≠ byte '=' := fun b hb => (mem_urlEncode hb).2
  obtain ⟨htake, hdrop⟩ := splitAt_separator hname (urlEncode parameter.2)
  rw [addPair, pairText, List.append_assoc, List.singleton_append, htake, hdrop]
  simp only [urlDecode_urlEncode]

theorem mem_pairText {parameter : List Byte × List Byte} {b : Byte} (h : b ∈ pairText parameter) :
    b ≠ byte '&' := by
  simp only [pairText, List.mem_append, List.mem_singleton] at h
  rcases h with (h | rfl) | h
  · exact (mem_urlEncode h).1
  · decide
  · exact (mem_urlEncode h).1

/-- The loop adds the pairs one after the other. -/
theorem parsePairs_form (parameter : List Byte × List Byte)
    (parameters stored : List (List Byte × List Byte)) :
    parsePairs (form (parameter :: parameters)) stored =
      (parameter :: parameters).foldl (fun m p => SortedAssoc.insert p.1 p.2 m) stored := by
  induction parameters generalizing parameter stored with
  | nil =>
    have hall : ∀ b ∈ pairText parameter, decide (b ≠ byte '&') = true := fun b hb =>
      decide_eq_true (mem_pairText hb)
    rw [form_cons, List.flatMap_nil, List.append_nil, parsePairs,
      List.takeWhile_eq_self_iff.mpr hall, addPair_pairText]
    split
    · rfl
    · rename_i h
      rw [List.dropWhile_eq_nil_iff.mpr hall] at h
      cases h
  | cons next parameters ih =>
    have hform : form (parameter :: next :: parameters) =
        pairText parameter ++ byte '&' :: form (next :: parameters) := by
      rw [form_cons, form_cons, List.flatMap_cons]
      rfl
    obtain ⟨htake, hdrop⟩ :=
      splitAt_separator (fun b => mem_pairText) (form (next :: parameters))
    rw [hform, parsePairs, htake, addPair_pairText]
    split
    · rename_i h
      rw [hdrop] at h
      cases h
    · rename_i h
      rw [hdrop] at h
      rw [← (List.cons.inj h).2, ih next]
      rfl

theorem parseQuery_form (parameters : List (List Byte × List Byte)) :
    parseQuery (byte '?' :: form parameters) =
      parameters.foldl (fun m p => SortedAssoc.insert p.1 p.2 m) [] := by
  have hquestion : (byte '?' :: form parameters).dropWhile (· ≠ byte '?') =
      byte '?' :: form parameters := by
    simp
  rw [parseQuery, hquestion]
  cases parameters with
  | nil =>
    change parsePairs [] [] = []
    rw [parsePairs]
    rfl
  | cons parameter parameters => exact parsePairs_form parameter parameters []

/-- A query gives back the map of the parameters that its form was made of, and decoding gives back
what was encoded. -/
theorem form_coding (parameters : List (List Byte × List Byte))
    (hnames : (parameters.map Prod.fst).Nodup) :
    SortedAssoc.Sorted (parseQuery (byte '?' :: form parameters)) ∧
      (parseQuery (byte '?' :: form parameters)).Perm parameters ∧
      ∀ s, urlDecode (urlEncode s) = s := by
  rw [parseQuery_form]
  refine ⟨SortedAssoc.sorted_foldl_insert _ List.Pairwise.nil, ?_, urlDecode_urlEncode⟩
  have hperm := SortedAssoc.perm_foldl_insert parameters [] (by rwa [List.append_nil])
  rwa [List.append_nil] at hperm

/-- Values with separators in them, and a parameter of two empty strings. -/
def callbackParameters : List (List Byte × List Byte) :=
  [("state".toList.map byte, "a=b&c+d %".toList.map byte), ("code".toList.map byte, [255]), ([], [])]

theorem callback_coding :
    SortedAssoc.Sorted (parseQuery (byte '?' :: form callbackParameters)) ∧
      (parseQuery (byte '?' :: form callbackParameters)).Perm callbackParameters ∧
      ∀ s, urlDecode (urlEncode s) = s :=
  form_coding callbackParameters (by decide)

end Sdk.Cpp.OAuth

end AuruPm
