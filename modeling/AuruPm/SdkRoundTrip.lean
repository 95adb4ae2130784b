import AuruPm.SdkCanonical
import AuruPm.SdkReader

/-!
# Reading back what a client library writes

Each parser reads the compact text of a value back, and so the ordinary and the canonical text of
every value without fractional numbers.
-/

namespace AuruPm

set_option autoImplicit false

open JsonValue CodeUnits

namespace Sdk

variable {T D : Type}

/-! Strings. -/

/-- A reader of `\u` escapes takes four units, and looks ahead only at another escape. -/
structure EscapeLaw (unicode : List Nat → Option (List Nat × List Nat)) : Prop where
  split : ∀ s units rest, unicode s = some (units, rest) → ∃ p, s = p ++ rest ∧ 4 ≤ p.length ∧
    ∀ rest', pairAhead rest' = pairAhead rest → unicode (p ++ rest') = some (units, rest')
  control : ∀ u < 0x20, ∀ s, unicode (hex4 u ++ s) = some ([u], s)

theorem pairAhead_cons_ne {u : Nat} (h : u ≠ '\\'.toNat) (s : List Nat) : pairAhead (u :: s) = none := by
  rw [pairAhead, if_neg]
  rintro ⟨_, htake⟩
  simp [ascii] at htake
  exact h htake.1

theorem pairAhead_cons_cons_ne {u : Nat} (h : u ≠ 'u'.toNat) (v : Nat) (s : List Nat) :
    pairAhead (v :: u :: s) = none := by
  rw [pairAhead, if_neg]
  rintro ⟨_, htake⟩
  simp [ascii] at htake
  exact h htake.2

theorem pairAhead_append {p : List Nat} (h : 6 ≤ p.length) (s : List Nat) :
    pairAhead (p ++ s) = pairAhead p := by
  unfold pairAhead
  rw [List.take_append_of_le_length (by omega), List.drop_append_of_le_length (by omega),
    List.take_append_of_le_length (by rw [List.length_drop]; omega)]
  simp only [List.length_append, h, true_and, Nat.le_add_right_of_le h]

theorem readUnits_quote (unicode : List Nat → Option (List Nat × List Nat)) (fuel : Nat)
    (rest : List Nat) : readUnits unicode (fuel + 1) ('"'.toNat :: rest) = some ([], rest) := by
  rw [readUnits.eq_def]
  rfl

theorem readUnits_raw (unicode : List Nat → Option (List Nat × List Nat)) (fuel : Nat) {u : Nat}
    (hquote : u ≠ '"'.toNat) (hslash : u ≠ '\\'.toNat) (rest : List Nat) :
    readUnits unicode (fuel + 1) (u :: rest) =
      if u < 0x20 then none else (readUnits unicode fuel rest).map (prepend [u]) := by
  rw [readUnits.eq_def]
  simp only [if_neg hquote, if_pos hslash]

theorem readUnits_unicode (unicode : List Nat → Option (List Nat × List Nat)) (fuel : Nat)
    (rest : List Nat) : readUnits unicode (fuel + 1) ('\\'.toNat :: 'u'.toNat :: rest) =
      (unicode rest).bind fun (units, rest) => (readUnits unicode fuel rest).map (prepend units) := by
  rw [readUnits.eq_def]
  rfl

theorem readUnits_escape (unicode : List Nat → Option (List Nat × List Nat)) (fuel : Nat) {e : Nat}
    (he : e ≠ 'u'.toNat) (rest : List Nat) :
    readUnits unicode (fuel + 1) ('\\'.toNat :: e :: rest) =
      (simpleEscape e).bind fun unit => (readUnits unicode fuel rest).map (prepend [unit]) := by
  rw [readUnits.eq_def]
  simp only [if_neg he]
  rfl

/-- The fuel that a reader starts with is more than what stands before a rest. -/
theorem length_lt_fuel (body r : List Nat) : body.length < (body ++ r).length + 1 := by
  rw [List.length_append]
  omega

/-- What is read up to the closing quote does not depend on what follows it. -/
theorem readUnits_split {unicode : List Nat → Option (List Nat × List Nat)} (hU : EscapeLaw unicode)
    {fuel : Nat} {s units r : List Nat} (h : readUnits unicode fuel s = some (units, r)) :
    ∃ body, s = body ++ '"'.toNat :: r ∧
      (∀ r', pairAhead (body ++ '"'.toNat :: r') = pairAhead (body ++ '"'.toNat :: r)) ∧
      ∀ r' fuel', body.length < fuel' →
        readUnits unicode fuel' (body ++ '"'.toNat :: r') = some (units, r') := by
  induction fuel generalizing s units r with
  | zero => rw [readUnits] at h; cases h
  | succ fuel ih =>
    cases s with
    | nil => rw [readUnits] at h; cases h
    | cons u rest =>
      by_cases hquote : u = '"'.toNat
      · subst hquote
        rw [readUnits_quote] at h
        cases h
        refine ⟨[], rfl, fun r' => ?_, fun r' fuel' hfuel => ?_⟩
        · rw [List.nil_append, List.nil_append, pairAhead_cons_ne (by decide),
            pairAhead_cons_ne (by decide)]
        · obtain ⟨fuel', rfl⟩ : ∃ n, fuel' = n + 1 := ⟨fuel' - 1, by omega⟩
          exact readUnits_quote unicode fuel' r'
      · by_cases hslash : u = '\\'.toNat
        · subst hslash
          cases rest with
          | nil =>
            rw [readUnits.eq_def] at h
            cases h
          | cons e rest =>
            by_cases he : e = 'u'.toNat
            · subst he
              rw [readUnits_unicode] at h
              obtain ⟨⟨piece, rest'⟩, hpiece, hnext⟩ := Option.bind_eq_some_iff.mp h
              obtain ⟨⟨units', r'⟩, hrest, heq⟩ := Option.map_eq_some_iff.mp hnext
              cases heq
              obtain ⟨p, rfl, hp, hunicode⟩ := hU.split _ _ _ hpiece
              obtain ⟨body, rfl, hahead, hread⟩ := ih hrest
              refine ⟨'\\'.toNat :: 'u'.toNat :: (p ++ body), by simp, fun r' => ?_,
                fun r' fuel' hfuel => ?_⟩
              · have hlong : 6 ≤ ('\\'.toNat :: 'u'.toNat :: (p ++ body)).length := by
                  simp
                  omega
                rw [pairAhead_append hlong, pairAhead_append hlong]
              · obtain ⟨fuel', rfl⟩ : ∃ n, fuel' = n + 1 := ⟨fuel' - 1, by simp at hfuel; omega⟩
                simp only [List.length_cons, List.length_append] at hfuel
                rw [List.cons_append, List.cons_append, List.append_assoc, readUnits_unicode,
                  hunicode _ (hahead r'), Option.bind_some]
                simp only
                rw [hread r' fuel' (by omega)]
                rfl
            · rw [readUnits_escape unicode fuel he] at h
              obtain ⟨unit, hunit, hnext⟩ := Option.bind_eq_some_iff.mp h
              obtain ⟨⟨units', r'⟩, hrest, heq⟩ := Option.map_eq_some_iff.mp hnext
              cases heq
              obtain ⟨body, rfl, _, hread⟩ := ih hrest
              refine ⟨'\\'.toNat :: e :: body, rfl, fun r' => ?_, fun r' fuel' hfuel => ?_⟩
              · rw [List.cons_append, List.cons_append, List.cons_append, List.cons_append,
                  pairAhead_cons_cons_ne he, pairAhead_cons_cons_ne he]
              · obtain ⟨fuel', rfl⟩ : ∃ n, fuel' = n + 1 := ⟨fuel' - 1, by simp at hfuel; omega⟩
                simp only [List.length_cons] at hfuel
                rw [List.cons_append, List.cons_append, readUnits_escape unicode fuel' he, hunit,
                  Option.bind_some, hread r' fuel' (by omega)]
                rfl
        · rw [readUnits_raw unicode fuel hquote hslash] at h
          split at h
          · cases h
          · rename_i hcontrol
            obtain ⟨⟨units', r'⟩, hrest, heq⟩ := Option.map_eq_some_iff.mp h
            cases heq
            obtain ⟨body, rfl, _, hread⟩ := ih hrest
            refine ⟨u :: body, rfl, fun r' => ?_, fun r' fuel' hfuel => ?_⟩
            · rw [List.cons_append, List.cons_append, pairAhead_cons_ne hslash,
                pairAhead_cons_ne hslash]
            · obtain ⟨fuel', rfl⟩ : ∃ n, fuel' = n + 1 := ⟨fuel' - 1, by simp at hfuel; omega⟩
              rw [List.cons_append, readUnits_raw unicode fuel' hquote hslash, if_neg hcontrol,
                hread r' fuel' (by simpa using hfuel)]
              rfl

/-- A string reader takes a text up to its closing quote, whatever follows. -/
theorem readString_iff {unicode : List Nat → Option (List Nat × List Nat)} (hU : EscapeLaw unicode)
    {s units r : List Nat} : readString unicode s = some (units, r) ↔
      ∃ body, s = body ++ '"'.toNat :: r ∧
        readString unicode (body ++ ['"'.toNat]) = some (units, []) := by
  constructor
  · intro h
    obtain ⟨body, rfl, _, hread⟩ := readUnits_split hU h
    exact ⟨body, rfl, hread [] _ (length_lt_fuel _ _)⟩
  · rintro ⟨body, rfl, h⟩
    obtain ⟨body', heq, _, hread⟩ := readUnits_split hU h
    obtain rfl := List.append_cancel_right heq
    exact hread r _ (length_lt_fuel _ _)

/-- A unit that was escaped is read in one step. -/
theorem readUnits_escaped {unicode : List Nat → Option (List Nat × List Nat)}
    (hU : EscapeLaw unicode) (u fuel : Nat) (s : List Nat) :
    readUnits unicode (fuel + 1) (escape u ++ s) = (readUnits unicode fuel s).map (prepend [u]) := by
  have hsimple : ∀ e unit, e ≠ 'u'.toNat → simpleEscape e = some unit →
      readUnits unicode (fuel + 1) ('\\'.toNat :: e :: s) =
        (readUnits unicode fuel s).map (prepend [unit]) := by
    intro e unit he hunit
    rw [readUnits_escape unicode fuel he, hunit]
    rfl
  unfold escape
  split
  · rename_i h
    exact h ▸ hsimple '"'.toNat _ (by decide) rfl
  split
  · rename_i h
    exact h ▸ hsimple '\\'.toNat _ (by decide) rfl
  split
  · rename_i h
    exact h ▸ hsimple 'b'.toNat _ (by decide) rfl
  split
  · rename_i h
    exact h ▸ hsimple 'f'.toNat _ (by decide) rfl
  split
  · rename_i h
    exact h ▸ hsimple 'n'.toNat _ (by decide) rfl
  split
  · rename_i h
    exact h ▸ hsimple 'r'.toNat _ (by decide) rfl
  split
  · rename_i h
    exact h ▸ hsimple 't'.toNat _ (by decide) rfl
  split
  · rename_i hcontrol
    rw [List.append_assoc]
    change readUnits unicode (fuel + 1) ('\\'.toNat :: 'u'.toNat :: (hex4 u ++ s)) = _
    rw [readUnits_unicode, hU.control u hcontrol]
    rfl
  · rename_i hquote hslash _ _ _ _ _ hcontrol
    rw [List.cons_append, List.nil_append, readUnits_raw unicode fuel hquote hslash,
      if_neg hcontrol]

/-- A quoted text reads back unit by unit. -/
theorem readString_escaped {unicode : List Nat → Option (List Nat × List Nat)}
    (hU : EscapeLaw unicode) (units : List Nat) :
    readString unicode (units.flatMap escape ++ ['"'.toNat]) = some (units, []) := by
  have hread : ∀ fuel, (units.flatMap escape).length < fuel →
      readUnits unicode fuel (units.flatMap escape ++ ['"'.toNat]) = some (units, []) := by
    induction units with
    | nil =>
      intro fuel hfuel
      obtain ⟨fuel, rfl⟩ : ∃ n, fuel = n + 1 := ⟨fuel - 1, by omega⟩
      exact readUnits_quote unicode fuel []
    | cons u units ih =>
      intro fuel hfuel
      obtain ⟨fuel, rfl⟩ : ∃ n, fuel = n + 1 := ⟨fuel - 1, by omega⟩
      have hpos : 0 < (escape u).length := by
        rw [List.length_pos_iff]
        unfold escape
        split_ifs <;> simp [ascii]
      rw [List.flatMap_cons, List.length_append] at hfuel
      rw [List.flatMap_cons, List.append_assoc, readUnits_escaped hU, ih fuel (by omega)]
      rfl
  exact hread _ (length_lt_fuel _ _)

theorem pairAhead_some {s units : List Nat} (h : pairAhead s = some units) :
    6 ≤ s.length ∧ ∀ r, pairAhead (s.take 6 ++ r) = some units := by
  have hlength : 6 ≤ s.length := by
    unfold pairAhead at h
    split at h
    · rename_i hif
      exact hif.1
    · cases h
  refine ⟨hlength, fun r => ?_⟩
  have htake : 6 ≤ (s.take 6).length := by
    rw [List.length_take]
    omega
  rw [pairAhead_append htake, ← pairAhead_append htake (s.drop 6), List.take_append_drop, h]

theorem readPaired_append (value : List Nat → Option Nat) (bytes : Nat → List Nat) (p rest : List Nat)
    (hp : p.length = 4) : readPaired value bytes (p ++ rest) =
      (value p).bind fun codePoint =>
        match if isLead codePoint then pairAhead rest else none with
        | none => some (bytes codePoint, rest)
        | some units =>
          (value units).bind fun trail =>
            if isTrail trail then
              some (bytes (0x10000 + (codePoint - 0xD800) <<< 10 + (trail - 0xDC00)), rest.drop 6)
            else some (bytes codePoint, rest) := by
  rw [readPaired, if_neg (by rw [List.length_append]; omega)]
  generalize htake : (p ++ rest).take 4 = digits
  generalize hdrop : (p ++ rest).drop 4 = after
  rw [List.take_left' hp] at htake
  rw [List.drop_left' hp] at hdrop
  subst htake hdrop
  rfl

theorem escapeLaw_readPaired {value : List Nat → Option Nat} {bytes : Nat → List Nat}
    (hvalue : ∀ u < 0x20, value (hex4 u) = some u) (hbytes : ∀ u < 0x20, bytes u = [u]) :
    EscapeLaw (readPaired value bytes) := by
  have hstep := readPaired_append value bytes
  constructor
  · intro s units rest h
    by_cases hs : s.length < 4
    · rw [readPaired, if_pos hs] at h
      cases h
    · have hp : (s.take 4).length = 4 := by
        rw [List.length_take]
        omega
      generalize hp' : s.take 4 = p at hp
      generalize hq : s.drop 4 = q
      obtain rfl : s = p ++ q := by rw [← hp', ← hq, List.take_append_drop]
      rw [hstep p q hp] at h
      obtain ⟨codePoint, hcode, h⟩ := Option.bind_eq_some_iff.mp h
      split at h
      · rename_i hnone
        cases h
        refine ⟨p, rfl, by omega, fun rest' hahead => ?_⟩
        rw [hstep p rest' hp, hcode, Option.bind_some, hahead, hnone]
      · rename_i ahead hsome
        obtain ⟨trail, htrail, h⟩ := Option.bind_eq_some_iff.mp h
        split at h
        · rename_i hpair
          cases h
          have hahead : pairAhead q = some ahead := by
            split at hsome
            · exact hsome
            · cases hsome
          obtain ⟨hlength, hany⟩ := pairAhead_some hahead
          refine ⟨p ++ q.take 6, by rw [List.append_assoc, List.take_append_drop],
            by rw [List.length_append]; omega, fun rest' _ => ?_⟩
          have hdrop : (q.take 6 ++ rest').drop 6 = rest' :=
            List.drop_left' (by rw [List.length_take]; omega)
          rw [List.append_assoc, hstep p _ hp, hcode, Option.bind_some, hany, ← hahead, hsome]
          simp only [htrail, Option.bind_some, hpair, if_true, hdrop]
        · rename_i hpair
          cases h
          refine ⟨p, rfl, by omega, fun rest' hahead => ?_⟩
          rw [hstep p rest' hp, hcode, Option.bind_some, hahead, hsome]
          simp only [htrail, Option.bind_some, hpair]
          rfl
  · intro u hu s
    have hlead : isLead u = false := by
      simp [isLead]
      omega
    rw [hstep _ _ rfl, hvalue u hu, Option.bind_some, hlead, hbytes u hu]
    rfl

theorem Cpp.escapeLaw : EscapeLaw Cpp.readUnicode :=
  escapeLaw_readPaired (by decide +kernel) (by decide +kernel)

theorem Swift.escapeLaw : EscapeLaw Swift.readUnicode :=
  escapeLaw_readPaired (by decide +kernel) (by decide +kernel)

/-- `Character.digit` knows the ASCII digits, and no other ASCII unit. -/
def AsciiDigits (digit : Nat → Option Nat) : Prop := ∀ u < 0x80, digit u = hexValue u

theorem Java.parseInt_ascii {digit : Nat → Option Nat} (hdigit : AsciiDigits digit) {s : List Nat}
    (h : ∀ u ∈ s, u < 0x80) : Java.parseInt digit s = Java.parseInt hexValue s := by
  have hall : ∀ l : List Nat, (∀ u ∈ l, u < 0x80) →
      (l.all fun u => (digit u).isSome) = (l.all fun u => (hexValue u).isSome) ∧
        l.filterMap digit = l.filterMap hexValue := by
    intro l hl
    have heq : ∀ u ∈ l, digit u = hexValue u := fun u hu => hdigit u (hl u hu)
    refine ⟨?_, List.filterMap_congr heq⟩
    rw [Bool.eq_iff_iff, List.all_eq_true, List.all_eq_true]
    exact forall₂_congr fun u hu => by rw [heq u hu]
  cases s with
  | nil => rfl
  | cons u rest =>
    have hrest := hall rest fun u hu => h u (List.mem_cons_of_mem _ hu)
    have hs := hall (u :: rest) h
    simp only [Java.parseInt, hrest.1, hrest.2, hs.1, hs.2]

theorem Java.escapeLaw {digit : Nat → Option Nat} (hdigit : AsciiDigits digit) :
    EscapeLaw (Java.readUnicode digit) := by
  constructor
  · intro s units rest h
    unfold Java.readUnicode at h
    split at h
    · cases h
    · obtain ⟨n, hn, heq⟩ := Option.map_eq_some_iff.mp h
      cases heq
      have hp : (s.take 4).length = 4 := by
        rw [List.length_take]
        omega
      refine ⟨s.take 4, (List.take_append_drop 4 s).symm, by omega, fun rest' _ => ?_⟩
      rw [Java.readUnicode, if_neg (by rw [List.length_append]; omega), List.take_left' hp,
        List.drop_left' hp, hn]
      rfl
  · intro u hu s
    have hascii : ∀ u < 0x20, ∀ w ∈ hex4 u, w < 0x80 := by decide +kernel
    have hint : ∀ u < 0x20, Java.parseInt hexValue (hex4 u) = some (u : Int) := by decide +kernel
    have hlength : (hex4 u).length = 4 := rfl
    rw [Java.readUnicode, if_neg (by simp [hex4]), List.take_left' hlength, List.drop_left' hlength,
      Java.parseInt_ascii hdigit (hascii u hu), hint u hu, Option.map_some]
    congr 3
    omega

/-! Numbers. -/

/-- The digits of a number begin with something other than a sign. -/
theorem digits_cons (n : Nat) :
    ∃ u rest, (Nat.toDigits 10 n).map Char.toNat = u :: rest ∧ u ≠ '-'.toNat := by
  obtain ⟨u, rest, hcons⟩ := List.exists_cons_of_ne_nil
    (l := (Nat.toDigits 10 n).map Char.toNat) (by simp [Nat.toDigits_ne_nil])
  refine ⟨u, rest, hcons, ?_⟩
  rintro rfl
  have hdigit := isDigit_of_mem_toDigits (hcons ▸ List.mem_cons_self)
  revert hdigit
  decide

theorem parseInt64_decimal (number : Int64) : parseInt64 (decimal number) = some number := by
  have hdigits : ∀ n : Nat, ((Nat.toDigits 10 n).map Char.toNat).foldl
      (fun n u => 10 * n + (u - '0'.toNat)) 0 = n := by
    intro n
    rw [List.foldl_map]
    exact Nat.ofDigitChars_ten_toDigits
  have hrange : -2 ^ 63 ≤ number.toInt ∧ number.toInt < 2 ^ 63 :=
    ⟨number.le_toInt, number.toInt_lt⟩
  rw [decimal_eq]
  split
  · rename_i hneg
    have hvalue : -(number.toInt.natAbs : Int) = number.toInt := by omega
    simp only [parseInt64, List.cons_append, List.nil_append, if_true, hdigits, hvalue, hrange,
      and_self, Int64.ofInt_toInt]
  · rename_i hneg
    have hvalue : (number.toInt.natAbs : Int) = number.toInt := by omega
    obtain ⟨u, rest, hcons, hu⟩ := digits_cons number.toInt.natAbs
    have hsum := hdigits number.toInt.natAbs
    rw [hcons] at hsum
    simp only [parseInt64, List.nil_append, hcons, if_neg hu, hsum, hvalue, hrange, and_self,
      if_true, Int64.ofInt_toInt]

theorem fractional_decimal (number : Int64) : fractional (decimal number) = false := by
  have hdigits : ((Nat.toDigits 10 number.toInt.natAbs).map Char.toNat).any (!isDigit ·) = false := by
    rw [List.any_eq_false]
    intro u hu
    simp [isDigit_of_mem_toDigits hu]
  rw [decimal_eq]
  split
  · simp only [List.cons_append, List.nil_append, fractional, if_true, hdigits]
  · obtain ⟨u, rest, hcons, hu⟩ := digits_cons number.toInt.natAbs
    rw [hcons] at hdigits
    simp only [List.nil_append, hcons, fractional, if_neg hu, hdigits]

theorem parseNumber_decimal (double : List Nat → Option D) (number : Int64) :
    parseNumber double (decimal number) = some (.int number : JsonValue T D) := by
  have hne : ¬ (decimal number = [] ∨ decimal number = ['-'.toNat]) := by
    obtain ⟨u, rest, hcons, hu⟩ := digits_cons number.toInt.natAbs
    rw [decimal_eq, hcons]
    split <;> simp
    intro h
    exact absurd h hu
  rw [parseNumber, if_neg hne, fractional_decimal]
  simp only [parseInt64_decimal]
  rfl

theorem all_isNumberUnit_decimal (number : Int64) : (decimal number).all isNumberUnit := by
  rw [List.all_eq_true]
  intro u hu
  rw [decimal_eq, List.mem_append] at hu
  rcases hu with hu | hu
  · split at hu
    · rw [List.mem_singleton.mp hu]
      decide
    · cases hu
  · simp [isNumberUnit, isDigit_of_mem_toDigits hu]

theorem parseNumber_only (double : List Nat → Option D) (l : List Nat) (v : JsonValue T D)
    (h : parseNumber double l = some v) : (∃ n, v = .int n) ∨ ∃ d, v = .dec d := by
  unfold parseNumber at h
  split at h
  · cases h
  · split at h
    · cases h
      exact Or.inl ⟨_, rfl⟩
    · obtain ⟨d, _, rfl⟩ := Option.map_eq_some_iff.mp h
      exact Or.inr ⟨d, rfl⟩

/-! The readers. -/

theorem Cpp.lawful_reader (strtod : List Nat → D) : (Cpp.reader strtod).Lawful where
  number_nil := rfl
  number_only := parseNumber_only fun literal => some (strtod literal)
  text_iff _ _ _ := readString_iff Cpp.escapeLaw

theorem Java.lawful_reader {digit : Nat → Option Nat} (hdigit : AsciiDigits digit)
    (parseDouble : List Nat → D) : (Java.reader digit parseDouble).Lawful where
  number_nil := rfl
  number_only := parseNumber_only _
  text_iff _ _ _ := readString_iff (Java.escapeLaw hdigit)

theorem Swift.lawful_reader (double : List Nat → D) : (Swift.reader double).Lawful where
  number_nil := rfl
  number_only := parseNumber_only _
  text_iff s text r := by
    constructor
    · intro h
      obtain ⟨⟨units, r'⟩, hunits, heq⟩ := Option.map_eq_some_iff.mp h
      cases heq
      obtain ⟨body, rfl, hbody⟩ := (readString_iff Swift.escapeLaw).mp hunits
      exact ⟨body, rfl, Option.map_eq_some_iff.mpr ⟨_, hbody, rfl⟩⟩
    · rintro ⟨body, rfl, hbody⟩
      obtain ⟨⟨units, r'⟩, hunits, heq⟩ := Option.map_eq_some_iff.mp hbody
      cases heq
      exact Option.map_eq_some_iff.mpr ⟨_, (readString_iff Swift.escapeLaw).mpr ⟨body, rfl, hunits⟩, rfl⟩

/-- A reader that reads decimals and quoted texts back reads compact texts back. -/
theorem parse_compact {R : Reader T D} (hR : R.Lawful)
    (hnumber : ∀ number, R.number (decimal number) = some (.int number))
    {string : T → List Nat} {double : D → List Nat}
    (hstring : ∀ text, Quoted R.tokens text (string text))
    (hcollect : ∀ ms : List (T × JsonValue T D), (ms.map Prod.fst).Nodup → R.collect ms = ms)
    {v : JsonValue T D} (hv : v.Distinct) (hintegral : v.Integral) :
    JsonValue.parse R (compact string double v) = some v := by
  have hint : ∀ number, R.tokens.int (decimal number) number := fun number =>
    ⟨all_isNumberUnit_decimal number, hnumber number⟩
  have hspells : Spells R.tokens v (compact string double v) :=
    spells_compact hint hstring hintegral
  rw [parse_eq_some_iff hR]
  exact ⟨v, spaced_of hspells, (rebuild_eq_self hcollect hv).symm⟩

end Sdk

end AuruPm
