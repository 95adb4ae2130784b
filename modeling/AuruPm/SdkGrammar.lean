import AuruPm.SdkRoundTrip

/-!
# What the client libraries take for JSON

The grammar of RFC 8259 over code points, and the wider grammars that the parsers read. A parser
scans a number as a run of digits, signs, points and exponents before a library call reads it, and
hands the four units after `\u` to another.
-/

namespace AuruPm

set_option autoImplicit false

open JsonValue CodeUnits

namespace Sdk

variable {T D : Type}

/-! Strings. -/

/-- The value of four hexadecimal digits. -/
def hexQuad : List Nat → Option Nat
  | [a, b, c, d] => do
    let a ← hexValue a
    let b ← hexValue b
    let c ← hexValue c
    let d ← hexValue d
    return ((a * 16 + b) * 16 + c) * 16 + d
  | _ => none

/-- What stands between quotes, with `allowed` for the four units after `\u`. -/
inductive Body (allowed : List Nat → Prop) : List Nat → Prop
  | nil : Body allowed []
  | raw {u : Nat} {rest : List Nat} : 0x20 ≤ u → u ≠ '"'.toNat → u ≠ '\\'.toNat →
      Body allowed rest → Body allowed (u :: rest)
  | simple {e unit : Nat} {rest : List Nat} : simpleEscape e = some unit → Body allowed rest →
      Body allowed ('\\'.toNat :: e :: rest)
  | unicode {quad rest : List Nat} : quad.length = 4 → allowed quad → Body allowed rest →
      Body allowed ('\\'.toNat :: 'u'.toNat :: (quad ++ rest))

/-- The text that code points between quotes denote, where no escape leaves a surrogate alone. -/
inductive Denotes : List Nat → List Char → Prop
  | nil : Denotes [] []
  | raw {c : Char} {rest : List Nat} {text : List Char} : 0x20 ≤ c.toNat → c ≠ '"' → c ≠ '\\' →
      Denotes rest text → Denotes (c.toNat :: rest) (c :: text)
  | simple {e unit : Nat} {rest : List Nat} {text : List Char} : simpleEscape e = some unit →
      Denotes rest text → Denotes ('\\'.toNat :: e :: rest) (Char.ofNat unit :: text)
  | unicode {quad rest : List Nat} {c : Char} {text : List Char} : hexQuad quad = some c.toNat →
      Denotes rest text → Denotes ('\\'.toNat :: 'u'.toNat :: (quad ++ rest)) (c :: text)
  | pair {quad quad' rest : List Nat} {lead trail : Nat} {c : Char} {text : List Char} :
      hexQuad quad = some lead → isLead lead → hexQuad quad' = some trail → isTrail trail →
      c.toNat = 0x10000 + (lead - 0xD800) * 0x400 + (trail - 0xDC00) → Denotes rest text →
      Denotes ('\\'.toNat :: 'u'.toNat :: (quad ++ '\\'.toNat :: 'u'.toNat :: (quad' ++ rest)))
        (c :: text)

/-! Numbers. -/

def Digits (l : List Nat) : Prop := l ≠ [] ∧ ∀ u ∈ l, isDigit u

/-- `[ minus ] int [ frac ] [ exp ]` -/
def RfcNumber (l : List Nat) : Prop :=
  ∃ sign whole fraction exponent, l = sign ++ (whole ++ (fraction ++ exponent)) ∧
    (sign = [] ∨ sign = ['-'.toNat]) ∧
    Digits whole ∧ (whole.head? = some '0'.toNat → whole = ['0'.toNat]) ∧
    (fraction = [] ∨ ∃ digits, fraction = '.'.toNat :: digits ∧ Digits digits) ∧
    (exponent = [] ∨ ∃ e sign digits, exponent = e :: (sign ++ digits) ∧
      (e = 'e'.toNat ∨ e = 'E'.toNat) ∧
      (sign = [] ∨ sign = ['+'.toNat] ∨ sign = ['-'.toNat]) ∧ Digits digits)

/-- A literal that 64 bits hold, without a fraction and an exponent. -/
def wholeNumber (literal : List Nat) : Option Int64 :=
  if fractional literal then none else parseInt64 literal

/-- The grammar with these numbers and these texts. -/
def grammar (number : List Nat → Prop) (text : List Nat → T → Prop) : Tokens T Unit where
  int l n := number l ∧ wholeNumber l = some n
  dec l _ := number l ∧ wholeNumber l = none
  text := text

def rfc : Tokens Unit Unit := grammar RfcNumber fun body _ => Body (fun quad => (hexQuad quad).isSome) body

/-- The grammar with what its texts denote. -/
def rfcDenoting : Tokens (List Char) Unit := grammar RfcNumber Denotes

/-- A text of one value with whitespace around it. -/
def IsText (S : Tokens T D) (s : List Nat) : Prop := ∃ v, Spaced (Spells S v) s

/-- A run of the units that a number may hold, but not a sign alone. -/
def NumberRun (l : List Nat) : Prop := l.all isNumberUnit ∧ l ≠ [] ∧ l ≠ ['-'.toNat]

/-- A literal that a decimal conversion takes. -/
def DecimalRun (l : List Nat) : Prop := l.all isNumberUnit ∧ isDecimal l

/-- Any run for a number, and any bytes after `\u`. -/
def Cpp.lenient : Tokens Unit Unit := grammar NumberRun fun body _ => Body (fun _ => True) body

/-- Leading zeros, a plus and no digits on one side of the point, and what `parseInt` takes. -/
def Java.lenient (digit : Nat → Option Nat) : Tokens Unit Unit :=
  grammar DecimalRun fun body _ => Body (fun quad => (Java.parseInt digit quad).isSome) body

def Swift.lenient : Tokens Unit Unit :=
  grammar DecimalRun fun body _ => Body (fun quad => (hexQuad quad).isSome) body

/-! String readers and the bodies that they take. -/

/-- An escape reader takes four units that it knows, and with them another escape or none. -/
structure TakesEscapes (allowed : List Nat → Prop) (unicode : List Nat → Option (List Nat × List Nat)) :
    Prop where
  taken : ∀ s units rest, unicode s = some (units, rest) → ∃ quad, quad.length = 4 ∧ allowed quad ∧
    (s = quad ++ rest ∨ ∃ quad', quad'.length = 4 ∧ allowed quad' ∧
      s = quad ++ '\\'.toNat :: 'u'.toNat :: (quad' ++ rest))
  takes : ∀ quad s, quad.length = 4 → allowed quad → (∀ quad', pairAhead s = some quad' → allowed quad') →
    ∃ units rest, unicode (quad ++ s) = some (units, rest)

section Bodies
variable {allowed : List Nat → Prop} {unicode : List Nat → Option (List Nat × List Nat)}

theorem body_of_readUnits (hA : TakesEscapes allowed unicode) {fuel : Nat} {s units r : List Nat}
    (h : readUnits unicode fuel s = some (units, r)) :
    ∃ body, s = body ++ '"'.toNat :: r ∧ Body allowed body := by
  induction fuel generalizing s units r with
  | zero =>
    rw [readUnits] at h
    cases h
  | succ fuel ih =>
    cases s with
    | nil =>
      rw [readUnits] at h
      cases h
    | cons u rest =>
      by_cases hquote : u = '"'.toNat
      · subst hquote
        rw [readUnits_quote] at h
        cases h
        exact ⟨[], rfl, .nil⟩
      · by_cases hslash : u = '\\'.toNat
        · subst hslash
          cases rest with
          | nil =>
            rw [readUnits.eq_def] at h
            cases h
          | cons e rest =>
            by_cases he : e = 'u'.toNat
            · subst he
              rw [readUnits_unicode] at h
              obtain ⟨⟨piece, rest'⟩, hpiece, hnext⟩ := Option.bind_eq_some_iff.mp h
              obtain ⟨⟨units', r'⟩, hrest, heq⟩ := Option.map_eq_some_iff.mp hnext
              cases heq
              obtain ⟨body, rfl, hbody⟩ := ih hrest
              obtain ⟨quad, hlength, hquad, rfl | ⟨quad', hlength', hquad', rfl⟩⟩ :=
                hA.taken _ _ _ hpiece
              · exact ⟨'\\'.toNat :: 'u'.toNat :: (quad ++ body), by simp,
                  .unicode hlength hquad hbody⟩
              · exact ⟨'\\'.toNat :: 'u'.toNat :: (quad ++ '\\'.toNat :: 'u'.toNat :: (quad' ++ body)),
                  by simp, .unicode hlength hquad (.unicode hlength' hquad' hbody)⟩
            · rw [readUnits_escape unicode fuel he] at h
              obtain ⟨unit, hunit, hnext⟩ := Option.bind_eq_some_iff.mp h
              obtain ⟨⟨units', r'⟩, hrest, heq⟩ := Option.map_eq_some_iff.mp hnext
              cases heq
              obtain ⟨body, rfl, hbody⟩ := ih hrest
              exact ⟨'\\'.toNat :: e :: body, rfl, .simple hunit hbody⟩
        · rw [readUnits_raw unicode fuel hquote hslash] at h
          split at h
          · cases h
          · rename_i hcontrol
            obtain ⟨⟨units', r'⟩, hrest, heq⟩ := Option.map_eq_some_iff.mp h
            cases heq
            obtain ⟨body, rfl, hbody⟩ := ih hrest
            exact ⟨u :: body, rfl, .raw (by omega) hquote hslash hbody⟩

/-- An escape at the start of a body. -/
theorem Body.escape_ahead {body r s : List Nat} (hbody : Body allowed body)
    (h : body ++ '"'.toNat :: r = '\\'.toNat :: 'u'.toNat :: s) :
    ∃ quad rest, quad.length = 4 ∧ allowed quad ∧ Body allowed rest ∧
      body = '\\'.toNat :: 'u'.toNat :: (quad ++ rest) ∧ s = quad ++ (rest ++ '"'.toNat :: r) := by
  cases hbody with
  | nil => simp at h
  | raw _ _ hslash _ => exact absurd (List.cons.inj h).1 hslash
  | simple hunit _ =>
    obtain ⟨rfl, _⟩ := List.cons.inj (List.cons.inj h).2
    cases hunit
  | @unicode quad rest hlength hquad hrest =>
    refine ⟨quad, rest, hlength, hquad, hrest, rfl, ?_⟩
    rw [← (List.cons.inj (List.cons.inj h).2).2]
    exact List.append_assoc _ _ _

theorem pairAhead_eq_some {s quad : List Nat} (h : pairAhead s = some quad) :
    ∃ rest, quad.length = 4 ∧ s = '\\'.toNat :: 'u'.toNat :: (quad ++ rest) := by
  unfold pairAhead at h
  split at h
  · rename_i hif
    obtain ⟨hlength, htake⟩ := hif
    cases h
    refine ⟨s.drop 6, by simp; omega, ?_⟩
    have hsplit : s = s.take 2 ++ s.drop 2 := (List.take_append_drop 2 s).symm
    rw [htake] at hsplit
    have hdrop : s.drop 6 = (s.drop 2).drop 4 := by rw [List.drop_drop]
    have hrest : s.drop 2 = (s.drop 2).take 4 ++ s.drop 6 := by
      rw [hdrop, List.take_append_drop]
    rw [hrest] at hsplit
    exact hsplit
  · cases h

theorem readUnits_of_body (hA : TakesEscapes allowed unicode) {body : List Nat}
    (hbody : Body allowed body) (r : List Nat) :
    ∃ fuel units, readUnits unicode fuel (body ++ '"'.toNat :: r) = some (units, r) := by
  generalize hn : body.length = n
  induction n using Nat.strong_induction_on generalizing body with
  | _ n ih =>
    cases hbody with
    | nil => exact ⟨1, [], readUnits_quote unicode 0 r⟩
    | @raw u rest hcontrol hquote hslash hrest =>
      obtain ⟨fuel, units, hread⟩ := ih rest.length (by simp at hn; omega) hrest rfl
      refine ⟨fuel + 1, u :: units, ?_⟩
      rw [List.cons_append, readUnits_raw unicode fuel hquote hslash, if_neg (by omega), hread]
      rfl
    | @simple e unit rest hunit hrest =>
      have he : e ≠ 'u'.toNat := by
        rintro rfl
        cases hunit
      obtain ⟨fuel, units, hread⟩ := ih rest.length (by simp at hn; omega) hrest rfl
      refine ⟨fuel + 1, unit :: units, ?_⟩
      rw [List.cons_append, List.cons_append, readUnits_escape unicode fuel he, hunit,
        Option.bind_some, hread]
      rfl
    | @unicode quad rest hlength hquad hrest =>
      obtain ⟨piece, after, hpiece⟩ := hA.takes quad (rest ++ '"'.toNat :: r) hlength hquad
        fun quad' hahead => by
          obtain ⟨after, hlength', hs⟩ := pairAhead_eq_some hahead
          obtain ⟨quad'', _, hlength'', hquad'', _, _, happend⟩ := hrest.escape_ahead hs
          rwa [(List.append_inj happend (hlength'.trans hlength''.symm)).1]
      have hnext : ∃ rest', Body allowed rest' ∧ rest'.length < n ∧ after = rest' ++ '"'.toNat :: r := by
        obtain ⟨quad₁, hlength₁, _, heq | ⟨quad', hlength', _, heq⟩⟩ := hA.taken _ _ _ hpiece
        · obtain ⟨_, hafter⟩ := List.append_inj heq (hlength.trans hlength₁.symm)
          exact ⟨rest, hrest, by simp at hn; omega, hafter.symm⟩
        · obtain ⟨_, hafter⟩ := List.append_inj heq (hlength.trans hlength₁.symm)
          obtain ⟨quad'', rest', hlength'', _, hrest', rfl, happend⟩ := hrest.escape_ahead hafter
          obtain ⟨_, hafter⟩ := List.append_inj happend (hlength'.trans hlength''.symm)
          exact ⟨rest', hrest', by simp at hn; omega, hafter⟩
      obtain ⟨rest', hrest', hshort, rfl⟩ := hnext
      obtain ⟨fuel, units, hread⟩ := ih rest'.length hshort hrest' rfl
      refine ⟨fuel + 1, piece ++ units, ?_⟩
      rw [List.cons_append, List.cons_append, List.append_assoc, readUnits_unicode, hpiece,
        Option.bind_some]
      simp only [hread]
      rfl

/-- A reader that reads at all reads with the fuel that it starts with. -/
theorem readString_of_readUnits (hU : EscapeLaw unicode) {fuel : Nat} {body units : List Nat}
    (h : readUnits unicode fuel (body ++ ['"'.toNat]) = some (units, [])) :
    readString unicode (body ++ ['"'.toNat]) = some (units, []) := by
  obtain ⟨body', heq, _, hread⟩ := readUnits_split hU h
  obtain rfl := List.append_cancel_right heq
  exact hread [] _ (length_lt_fuel _ _)

theorem readString_isSome_iff (hU : EscapeLaw unicode) (hA : TakesEscapes allowed unicode)
    {body : List Nat} :
    (∃ units, readString unicode (body ++ ['"'.toNat]) = some (units, [])) ↔ Body allowed body := by
  constructor
  · intro ⟨units, h⟩
    obtain ⟨body', heq, hbody⟩ := body_of_readUnits hA h
    rwa [List.append_cancel_right heq]
  · intro hbody
    obtain ⟨fuel, units, h⟩ := readUnits_of_body hA hbody []
    exact ⟨units, readString_of_readUnits hU h⟩

end Bodies

end Sdk

end AuruPm
