import AuruPm.SdkGrammar
import AuruPm.SdkReadBack

/-!
# Which texts the client libraries accept

Every library reads the texts of RFC 8259, and reads them alike. Each also reads texts of a wider
grammar, so together they follow the RFC on the texts that are outside all of these.
-/

namespace AuruPm

set_option autoImplicit false

open JsonValue CodeUnits

namespace Sdk

variable {T D : Type}

/-! Escapes. -/

theorem TakesEscapes.congr {allowed allowed' : List Nat → Prop}
    {unicode : List Nat → Option (List Nat × List Nat)}
    (h : ∀ quad : List Nat, quad.length = 4 → (allowed quad ↔ allowed' quad))
    (hA : TakesEscapes allowed unicode) : TakesEscapes allowed' unicode := by
  constructor
  · intro s units rest hs
    obtain ⟨quad, hlength, hquad, hcase⟩ := hA.taken s units rest hs
    refine ⟨quad, hlength, (h quad hlength).mp hquad, hcase.imp_right ?_⟩
    rintro ⟨quad', hlength', hquad', rfl⟩
    exact ⟨quad', hlength', (h quad' hlength').mp hquad', rfl⟩
  · intro quad s hlength hquad hahead
    refine hA.takes quad s hlength ((h quad hlength).mpr hquad) fun quad' hs => ?_
    obtain ⟨_, hlength', _⟩ := pairAhead_eq_some hs
    exact (h quad' hlength').mpr (hahead quad' hs)

theorem takesEscapes_readPaired (value : List Nat → Option Nat) (bytes : Nat → List Nat) :
    TakesEscapes (fun quad => (value quad).isSome) (readPaired value bytes) := by
  have hif : ∀ {codePoint : Nat} {s quad : List Nat},
      (if isLead codePoint then pairAhead s else none) = some quad → pairAhead s = some quad := by
    intro codePoint s quad h
    split at h
    · exact h
    · cases h
  constructor
  · intro s units rest h
    have hlength : 4 ≤ s.length := by
      by_contra hshort
      rw [readPaired, if_pos (by omega)] at h
      cases h
    obtain ⟨quad, after, rfl, hquad⟩ : ∃ quad after, s = quad ++ after ∧ quad.length = 4 :=
      ⟨s.take 4, s.drop 4, (List.take_append_drop 4 s).symm, by rw [List.length_take]; omega⟩
    rw [readPaired_append value bytes quad after hquad] at h
    obtain ⟨codePoint, hcode, h⟩ := Option.bind_eq_some_iff.mp h
    refine ⟨quad, hquad, by rw [hcode]; rfl, ?_⟩
    generalize hahead : (if isLead codePoint then pairAhead after else none) = ahead at h
    cases ahead with
    | none =>
      cases h
      exact Or.inl rfl
    | some quad' =>
      obtain ⟨trail, htrail, h⟩ := Option.bind_eq_some_iff.mp h
      obtain ⟨after', hlength', rfl⟩ := pairAhead_eq_some (hif hahead)
      split at h
      · cases h
        refine Or.inr ⟨quad', hlength', by rw [htrail]; rfl, ?_⟩
        have hdrop : (quad' ++ after').drop 4 = after' := List.drop_left' hlength'
        rw [List.drop_succ_cons, List.drop_succ_cons, hdrop]
      · cases h
        exact Or.inl rfl
  · intro quad s hlength hquad hahead
    obtain ⟨codePoint, hcode⟩ := Option.isSome_iff_exists.mp hquad
    rw [readPaired_append value bytes quad s hlength, hcode, Option.bind_some]
    generalize hsome : (if isLead codePoint then pairAhead s else none) = ahead
    cases ahead with
    | none => exact ⟨_, _, rfl⟩
    | some quad' =>
      obtain ⟨trail, htrail⟩ := Option.isSome_iff_exists.mp (hahead quad' (hif hsome))
      simp only [htrail, Option.bind_some]
      split
      · exact ⟨_, _, rfl⟩
      · exact ⟨_, _, rfl⟩

theorem Cpp.takesEscapes : TakesEscapes (fun _ => True) Cpp.readUnicode :=
  (takesEscapes_readPaired _ _).congr fun _ _ => by simp

/-- Four units are hexadecimal to Swift as to the RFC. -/
theorem Swift.parseHex4_eq {quad : List Nat} (h : quad.length = 4) :
    Swift.parseHex4 quad = hexQuad quad := by
  obtain ⟨a, b, c, d, rfl⟩ : ∃ a b c d, quad = [a, b, c, d] := by
    match quad, h with
    | [a, b, c, d], _ => exact ⟨a, b, c, d, rfl⟩
  cases ha : hexValue a <;> cases hb : hexValue b <;> cases hc : hexValue c <;>
    cases hd : hexValue d <;> simp [Swift.parseHex4, hexQuad, hexSum, ha, hb, hc, hd]

theorem Swift.takesEscapes :
    TakesEscapes (fun quad => (hexQuad quad).isSome) Swift.readUnicode :=
  (takesEscapes_readPaired _ _).congr fun quad hlength => by rw [Swift.parseHex4_eq hlength]

theorem Java.takesEscapes (digit : Nat → Option Nat) :
    TakesEscapes (fun quad => (Java.parseInt digit quad).isSome) (Java.readUnicode digit) := by
  constructor
  · intro s units rest h
    unfold Java.readUnicode at h
    split at h
    · cases h
    · obtain ⟨n, hn, heq⟩ := Option.map_eq_some_iff.mp h
      cases heq
      refine ⟨s.take 4, by rw [List.length_take]; omega, by rw [hn]; rfl, Or.inl ?_⟩
      exact (List.take_append_drop 4 s).symm
  · intro quad s hlength hquad _
    obtain ⟨n, hn⟩ := Option.isSome_iff_exists.mp hquad
    rw [Java.readUnicode, if_neg (by rw [List.length_append]; omega), List.take_left' hlength, hn]
    exact ⟨_, _, rfl⟩

/-! Numbers. -/

theorem takeWhile_digits {l r : List Nat} (hl : ∀ u ∈ l, isDigit u)
    (hr : ∀ u, r.head? = some u → isDigit u = false) :
    (l ++ r).takeWhile isDigit = l ∧ (l ++ r).dropWhile isDigit = r := by
  have hend : r.takeWhile isDigit = [] ∧ r.dropWhile isDigit = r := by
    cases r with
    | nil => exact ⟨rfl, rfl⟩
    | cons u r => simp [hr u rfl]
  rw [List.takeWhile_append_of_pos hl, List.dropWhile_append_of_pos hl, hend.1, hend.2]
  exact ⟨List.append_nil l, rfl⟩

theorem dropSign_digits {l : List Nat} (hl : Digits l) (r : List Nat) :
    dropSign (l ++ r) = l ++ r := by
  obtain ⟨u, rest, rfl⟩ := List.exists_cons_of_ne_nil hl.1
  have hdigit := hl.2 u List.mem_cons_self
  have hsign : ¬ (u = '-'.toNat ∨ u = '+'.toNat) := by
    rintro (rfl | rfl)
    · revert hdigit
      decide
    · revert hdigit
      decide
  rw [List.cons_append, dropSign, if_neg hsign]

/-- A sign in front of digits is dropped. -/
theorem dropSign_sign {sign l : List Nat} (hl : Digits l)
    (h : sign = [] ∨ sign = ['+'.toNat] ∨ sign = ['-'.toNat]) (r : List Nat) :
    dropSign (sign ++ (l ++ r)) = l ++ r := by
  rcases h with rfl | rfl | rfl
  · exact dropSign_digits hl r
  · rfl
  · rfl

theorem isDecimal_of_rfcNumber {l : List Nat} (h : RfcNumber l) : isDecimal l := by
  obtain ⟨sign, whole, fraction, exponent, rfl, hsign, hwhole, _, hfraction, hexponent⟩ := h
  have hdrop := dropSign_sign hwhole (hsign.imp_right Or.inr) (fraction ++ exponent)
  have hexponentHead : ∀ u, exponent.head? = some u → isDigit u = false := by
    intro u hu
    rcases hexponent with rfl | ⟨e, _, _, rfl, he, _, _⟩
    · cases hu
    · cases hu
      rcases he with rfl | rfl <;> decide
  have hrestHead : ∀ u, (fraction ++ exponent).head? = some u → isDigit u = false := by
    intro u hu
    rcases hfraction with rfl | ⟨_, rfl, _⟩
    · exact hexponentHead u hu
    · cases hu
      decide
  obtain ⟨htake, hskip⟩ := takeWhile_digits hwhole.2 hrestHead
  have hend : isExponent exponent := by
    rcases hexponent with rfl | ⟨e, sign', digits, rfl, he, hsign', hdigits⟩
    · rfl
    · have hdigitsDrop := dropSign_sign hdigits hsign' []
      rw [List.append_nil] at hdigitsDrop
      have hall : digits.all isDigit := List.all_eq_true.mpr hdigits.2
      simp only [isExponent, hdigitsDrop, hall, Bool.and_true, Bool.and_eq_true, Bool.or_eq_true,
        decide_eq_true_eq]
      exact ⟨he, hdigits.1⟩
  unfold isDecimal
  simp only [hdrop, htake, hskip]
  rcases hfraction with rfl | ⟨digits, rfl, hdigits⟩
  · rw [List.nil_append]
    cases exponent with
    | nil =>
      rw [Bool.and_eq_true]
      exact ⟨by simp [hwhole.1], rfl⟩
    | cons e rest =>
      have hpoint : e ≠ '.'.toNat := by
        rcases hexponent with h | ⟨e', _, _, h, he, _, _⟩
        · cases h
        · cases h
          rcases he with rfl | rfl <;> decide
      simp only [if_neg hpoint]
      rw [Bool.and_eq_true]
      exact ⟨by simp [hwhole.1], hend⟩
  · obtain ⟨htake', hskip'⟩ := takeWhile_digits hdigits.2 hexponentHead
    simp only [List.cons_append, if_true, htake', hskip']
    rw [Bool.and_eq_true]
    exact ⟨by simp [hwhole.1], hend⟩

theorem isNumberUnit_of_isDigit {u : Nat} (h : isDigit u) : isNumberUnit u := by
  simp [isNumberUnit, h]

theorem all_isNumberUnit_of_rfcNumber {l : List Nat} (h : RfcNumber l) : l.all isNumberUnit := by
  obtain ⟨sign, whole, fraction, exponent, rfl, hsign, hwhole, _, hfraction, hexponent⟩ := h
  have hdigits : ∀ {digits : List Nat}, Digits digits → digits.all isNumberUnit := fun h =>
    List.all_eq_true.mpr fun u hu => isNumberUnit_of_isDigit (h.2 u hu)
  simp only [List.all_append, Bool.and_eq_true]
  refine ⟨?_, hdigits hwhole, ?_, ?_⟩
  · rcases hsign with rfl | rfl <;> decide
  · rcases hfraction with rfl | ⟨digits, rfl, h⟩
    · rfl
    · exact Bool.and_eq_true_iff.mpr ⟨by decide, hdigits h⟩
  · rcases hexponent with rfl | ⟨e, sign', digits, rfl, he, hsign', h⟩
    · rfl
    · rw [List.all_cons, List.all_append, hdigits h]
      rcases he with rfl | rfl <;> rcases hsign' with rfl | rfl | rfl <;> decide

theorem decimalRun_of_rfcNumber {l : List Nat} (h : RfcNumber l) : DecimalRun l :=
  ⟨all_isNumberUnit_of_rfcNumber h, isDecimal_of_rfcNumber h⟩

theorem numberRun_of_decimalRun {l : List Nat} (h : DecimalRun l) : NumberRun l := by
  refine ⟨h.1, ?_, ?_⟩
  · rintro rfl
    exact absurd h.2 (by decide)
  · rintro rfl
    exact absurd h.2 (by decide)

/-- A sign and digits are decimal. -/
theorem isDecimal_of_not_fractional {l : List Nat} (hne : l ≠ []) (hsign : l ≠ ['-'.toNat])
    (h : fractional l = false) : isDecimal l := by
  have hall : ∀ {digits : List Nat}, digits.any (!isDigit ·) = false → ∀ u ∈ digits, isDigit u := by
    intro digits h u hu
    simpa using List.any_eq_false.mp h u hu
  have hdigits : ∀ digits : List Nat, Digits digits → dropSign l = digits → isDecimal l := by
    intro digits hdigits heq
    obtain ⟨htake, hskip⟩ := takeWhile_digits hdigits.2 (r := []) (by simp)
    rw [List.append_nil] at htake hskip
    simp only [isDecimal, heq, htake, hskip]
    simp [isExponent, hdigits.1]
  cases l with
  | nil => exact absurd rfl hne
  | cons u rest =>
    unfold fractional at h
    simp only at h
    split at h
    · rename_i hu
      subst hu
      exact hdigits rest ⟨fun hrest => hsign (by rw [hrest]), hall h⟩ rfl
    · have hl : Digits (u :: rest) := ⟨List.cons_ne_nil _ _, hall h⟩
      have hdrop := dropSign_digits hl []
      rw [List.append_nil] at hdrop
      exact hdigits _ hl hdrop

theorem parseNumber_eq {double : List Nat → Option D} {l : List Nat} (h : NumberRun l) :
    (parseNumber double l : Option (JsonValue T D)) = match wholeNumber l with
      | some n => some (.int n)
      | none => (double l).map .dec := by
  rw [parseNumber, if_neg (not_or.mpr h.2)]
  rfl

theorem numberRun_of_parseNumber {double : List Nat → Option D} {l : List Nat}
    (hunits : l.all isNumberUnit) {v : JsonValue T D} (h : parseNumber double l = some v) :
    NumberRun l := by
  unfold parseNumber at h
  split at h
  · cases h
  · rename_i hne
    exact ⟨hunits, not_or.mp hne⟩

/-! Readers and the grammars that they read. -/

/-- The tokens of a reader are those of a grammar, whatever they are read as. -/
structure Reads (R : Reader T D) (number body : List Nat → Prop) : Prop where
  int : ∀ l n, R.tokens.int l n ↔ number l ∧ wholeNumber l = some n
  dec : ∀ l, (∃ d, R.tokens.dec l d) ↔ number l ∧ wholeNumber l = none
  text : ∀ l, (∃ text, R.tokens.text l text) ↔ body l

/-- What `parseNumber` takes. -/
theorem tokens_parseNumber {R : Reader T D} (double : List Nat → Option D)
    (hR : R.number = parseNumber double) (l : List Nat) :
    (∀ n, R.tokens.int l n ↔ NumberRun l ∧ wholeNumber l = some n) ∧
      ((∃ d, R.tokens.dec l d) ↔ NumberRun l ∧ wholeNumber l = none ∧ (double l).isSome) := by
  refine ⟨fun n => ⟨?_, ?_⟩, ?_, ?_⟩
  · rintro ⟨hunits, h⟩
    rw [hR] at h
    have hrun := numberRun_of_parseNumber hunits h
    refine ⟨hrun, ?_⟩
    rw [parseNumber_eq hrun] at h
    split at h
    · rename_i n' heq
      cases h
      exact heq
    · obtain ⟨_, _, heq⟩ := Option.map_eq_some_iff.mp h
      cases heq
  · rintro ⟨hrun, hwhole⟩
    refine ⟨hrun.1, ?_⟩
    rw [hR, parseNumber_eq hrun, hwhole]
  · rintro ⟨d, hunits, h⟩
    rw [hR] at h
    have hrun := numberRun_of_parseNumber hunits h
    rw [parseNumber_eq hrun] at h
    split at h
    · cases h
    · rename_i heq
      obtain ⟨d', hd, _⟩ := Option.map_eq_some_iff.mp h
      exact ⟨hrun, heq, by rw [hd]; rfl⟩
  · rintro ⟨hrun, hwhole, hdouble⟩
    obtain ⟨d, hd⟩ := Option.isSome_iff_exists.mp hdouble
    refine ⟨d, hrun.1, ?_⟩
    rw [hR, parseNumber_eq hrun, hwhole, hd]
    rfl

theorem Cpp.reads (strtod : List Nat → D) :
    Reads (Cpp.reader strtod) NumberRun (Body fun _ => True) := by
  have hnumber := tokens_parseNumber (R := Cpp.reader strtod) (fun literal => some (strtod literal)) rfl
  refine ⟨fun l => (hnumber l).1, fun l => ?_, fun l => ?_⟩
  · rw [(hnumber l).2]
    simp
  · exact readString_isSome_iff Cpp.escapeLaw Cpp.takesEscapes

/-- A conversion that takes decimals takes exactly the decimal runs. -/
theorem reads_decimal {R : Reader T D} {double : List Nat → D} {body : List Nat → Prop}
    (hR : R.number = parseNumber fun literal =>
      if isDecimal literal then some (double literal) else none)
    (htext : ∀ l, (∃ text, R.tokens.text l text) ↔ body l) : Reads R DecimalRun body := by
  have hnumber := tokens_parseNumber _ hR
  refine ⟨fun l n => ?_, fun l => ?_, htext⟩
  · rw [(hnumber l).1]
    refine ⟨fun ⟨hrun, hwhole⟩ => ⟨⟨hrun.1, ?_⟩, hwhole⟩,
      fun ⟨hrun, hwhole⟩ => ⟨numberRun_of_decimalRun hrun, hwhole⟩⟩
    refine isDecimal_of_not_fractional hrun.2.1 hrun.2.2 ?_
    unfold wholeNumber at hwhole
    split at hwhole
    · cases hwhole
    · rename_i h
      simpa using h
  · rw [(hnumber l).2]
    constructor
    · rintro ⟨hrun, hwhole, hdouble⟩
      refine ⟨⟨hrun.1, ?_⟩, hwhole⟩
      split at hdouble
      · assumption
      · cases hdouble
    · rintro ⟨hrun, hwhole⟩
      exact ⟨numberRun_of_decimalRun hrun, hwhole, by rw [if_pos hrun.2]; rfl⟩

theorem Java.reads {digit : Nat → Option Nat} (hdigit : AsciiDigits digit)
    (parseDouble : List Nat → D) : Reads (Java.reader digit parseDouble) DecimalRun
      (Body fun quad => (Java.parseInt digit quad).isSome) :=
  reads_decimal rfl fun _ =>
    readString_isSome_iff (Java.escapeLaw hdigit) (Java.takesEscapes digit)

theorem Swift.reads (double : List Nat → D) : Reads (Swift.reader double) DecimalRun
    (Body fun quad => (hexQuad quad).isSome) := by
  refine reads_decimal rfl fun l => ?_
  rw [← readString_isSome_iff Swift.escapeLaw Swift.takesEscapes]
  constructor
  · rintro ⟨text, h⟩
    obtain ⟨⟨units, r⟩, hunits, heq⟩ := Option.map_eq_some_iff.mp h
    cases heq
    exact ⟨units, hunits⟩
  · rintro ⟨units, h⟩
    exact ⟨decodeUtf8 units, Option.map_eq_some_iff.mpr ⟨_, h, rfl⟩⟩

/-- A reader accepts the texts of its grammar. -/
theorem parse_isSome_iff {R : Reader T D} (hR : R.Lawful) {number body : List Nat → Prop}
    (hreads : Reads R number body) (s : List Nat) :
    (parse R s).isSome ↔ IsText (grammar number fun l (_ : Unit) => body l) s := by
  have hself : ∀ l : List Nat, (l.flatMap fun c => [c]) = l := List.flatMap_singleton'
  have hto : Lifts (fun c => [c]) (id : Unit → Unit) (id : Unit → Unit) (fun _ => ()) (fun _ => ())
      R.tokens (grammar number fun l (_ : Unit) => body l) := by
    refine ⟨fun l n h => ?_, fun l d h => ⟨(), rfl, ?_⟩, fun l text h => ⟨(), rfl, ?_⟩⟩
    · rw [hself]
      exact (hreads.int l n).mp h
    · rw [hself]
      exact (hreads.dec l).mp ⟨d, h⟩
    · rw [hself]
      exact (hreads.text l).mp ⟨text, h⟩
  have hfrom : Lifts (fun c => [c]) (fun _ => ()) (fun _ => ()) (id : Unit → Unit) (id : Unit → Unit)
      (grammar number fun l (_ : Unit) => body l) R.tokens := by
    refine ⟨fun l n h => ?_, fun l _ h => ?_, fun l _ h => ?_⟩
    · rw [hself]
      exact (hreads.int l n).mpr h
    · obtain ⟨d, hd⟩ := (hreads.dec l).mpr h
      exact ⟨d, rfl, by rwa [hself]⟩
    · obtain ⟨text, htext⟩ := (hreads.text l).mpr h
      exact ⟨text, rfl, by rwa [hself]⟩
  rw [Option.isSome_iff_exists]
  constructor
  · rintro ⟨v, h⟩
    obtain ⟨raw, hspaced, _⟩ := (parse_eq_some_iff hR).mp h
    obtain ⟨shape, _, hshape⟩ := hspaced.lift transparent_scalars (Spells.lift transparent_scalars hto raw)
    rw [hself] at hshape
    exact ⟨shape, hshape⟩
  · rintro ⟨shape, hspaced⟩
    obtain ⟨raw, _, hraw⟩ := hspaced.lift transparent_scalars (Spells.lift transparent_scalars hfrom shape)
    rw [hself] at hraw
    exact ⟨_, (parse_eq_some_iff hR).mpr ⟨raw, hraw, rfl⟩⟩

/-! What a body denotes. -/

/-- An escape reader reads hexadecimal digits as the unit, and a pair as the code point. -/
structure ReadsEscapes (expand : Nat → List Nat)
    (unicode : List Nat → Option (List Nat × List Nat)) : Prop where
  single : ∀ (quad s : List Nat) (c : Char), hexQuad quad = some c.toNat →
    unicode (quad ++ s) = some (expand c.toNat, s)
  pair : ∀ (quad quad' s : List Nat) (lead trail : Nat) (c : Char), hexQuad quad = some lead →
    isLead lead → hexQuad quad' = some trail → isTrail trail →
    c.toNat = 0x10000 + (lead - 0xD800) * 0x400 + (trail - 0xDC00) →
    ∀ fuel units r, readUnits unicode fuel s = some (units, r) → ∃ fuel',
      readUnits unicode fuel' ('\\'.toNat :: 'u'.toNat ::
        (quad ++ '\\'.toNat :: 'u'.toNat :: (quad' ++ s))) = some (expand c.toNat ++ units, r)

theorem readUnits_raws (unicode : List Nat → Option (List Nat × List Nat)) {raws : List Nat}
    (h : ∀ u ∈ raws, 0x20 ≤ u ∧ u ≠ '"'.toNat ∧ u ≠ '\\'.toNat) {fuel : Nat} {s units r : List Nat}
    (hread : readUnits unicode fuel s = some (units, r)) :
    readUnits unicode (fuel + raws.length) (raws ++ s) = some (raws ++ units, r) := by
  induction raws with
  | nil => exact hread
  | cons u raws ih =>
    obtain ⟨hcontrol, hquote, hslash⟩ := h u List.mem_cons_self
    rw [List.length_cons, ← Nat.add_assoc, List.cons_append,
      readUnits_raw unicode _ hquote hslash, if_neg (by omega),
      ih fun u hu => h u (List.mem_cons_of_mem _ hu)]
    rfl

theorem hexValue_ascii {u : Nat} (h : (hexValue u).isSome) : u < 0x80 := by
  unfold hexValue at h
  have h9 : '9'.toNat = 57 := rfl
  have hf : 'f'.toNat = 102 := rfl
  have hF : 'F'.toNat = 70 := rfl
  split_ifs at h <;> first | omega | cases h

theorem hexQuad_eq_some {quad : List Nat} {n : Nat} (h : hexQuad quad = some n) :
    ∃ a b c d a' b' c' d', quad = [a, b, c, d] ∧ hexValue a = some a' ∧ hexValue b = some b' ∧
      hexValue c = some c' ∧ hexValue d = some d' ∧ n = ((a' * 16 + b') * 16 + c') * 16 + d' := by
  match quad, h with
  | [a, b, c, d], h =>
    simp only [hexQuad, Option.bind_eq_bind, Option.bind_eq_some_iff] at h
    obtain ⟨a', ha, b', hb, c', hc, d', hd, heq⟩ := h
    exact ⟨a, b, c, d, a', b', c', d', rfl, ha, hb, hc, hd, (Option.some.inj heq).symm⟩

theorem hexQuad_ascii {quad : List Nat} {n : Nat} (h : hexQuad quad = some n) :
    quad.length = 4 ∧ ∀ u ∈ quad, u < 0x80 := by
  obtain ⟨a, b, c, d, a', b', c', d', rfl, ha, hb, hc, hd, _⟩ := hexQuad_eq_some h
  have hlt : ∀ {u u' : Nat}, hexValue u = some u' → u < 0x80 := fun hu =>
    hexValue_ascii (by rw [hu]; rfl)
  exact ⟨rfl, by simp [hlt ha, hlt hb, hlt hc, hlt hd]⟩

theorem simpleEscape_ascii {e unit : Nat} (h : simpleEscape e = some unit) : e < 0x80 ∧ unit < 0x80 := by
  unfold simpleEscape at h
  split_ifs at h with h₁ h₂ h₃ h₄ h₅ h₆ h₇ h₈ <;> cases h <;>
    refine ⟨?_, by decide⟩ <;> subst e <;> decide

/-- A body is read as the encoding of what it denotes. -/
theorem readUnits_of_denotes {expand : Nat → List Nat} (h : Transparent expand)
    {unicode : List Nat → Option (List Nat × List Nat)} (hU : ReadsEscapes expand unicode)
    {body : List Nat} {text : List Char} (hbody : Denotes body text) (r : List Nat) :
    ∃ fuel, readUnits unicode fuel (body.flatMap expand ++ '"'.toNat :: r) =
      some ((scalars text).flatMap expand, r) := by
  have hslash : ∀ l : List Nat, ('\\'.toNat :: l).flatMap expand = '\\'.toNat :: l.flatMap expand := by
    intro l
    rw [List.flatMap_cons, h.ascii _ (by decide)]
    rfl
  have hu : ∀ l : List Nat, ('u'.toNat :: l).flatMap expand = 'u'.toNat :: l.flatMap expand := by
    intro l
    rw [List.flatMap_cons, h.ascii _ (by decide)]
    rfl
  have hquad : ∀ {quad : List Nat} {n : Nat}, hexQuad quad = some n → quad.flatMap expand = quad :=
    fun hq => h.flatMap_eq_self (hexQuad_ascii hq).2
  have hscalars : ∀ (c : Char) (text : List Char),
      (scalars (c :: text)).flatMap expand = expand c.toNat ++ (scalars text).flatMap expand :=
    fun _ _ => rfl
  induction hbody with
  | nil => exact ⟨1, readUnits_quote unicode 0 r⟩
  | @raw c rest text hcontrol hquote hbackslash _ ih =>
    obtain ⟨fuel, hread⟩ := ih
    refine ⟨fuel + (expand c.toNat).length, ?_⟩
    rw [List.flatMap_cons, List.append_assoc, hscalars]
    refine readUnits_raws unicode (fun u hu => ?_) hread
    by_cases hc : c.toNat < 0x80
    · rw [h.ascii _ hc, List.mem_singleton] at hu
      subst hu
      exact ⟨hcontrol, fun heq => hquote (Char.toNat_inj.mp heq),
        fun heq => hbackslash (Char.toNat_inj.mp heq)⟩
    · have hwide := (h.wide c.toNat (by omega)).2 u hu
      have hq : '"'.toNat = 34 := rfl
      have hs : '\\'.toNat = 92 := rfl
      omega
  | @simple e unit rest text hunit _ ih =>
    obtain ⟨fuel, hread⟩ := ih
    obtain ⟨he, hlt⟩ := simpleEscape_ascii hunit
    have hne : e ≠ 'u'.toNat := by
      rintro rfl
      cases hunit
    refine ⟨fuel + 1, ?_⟩
    rw [hslash, List.flatMap_cons, h.ascii e he, List.cons_append, List.cons_append, List.cons_append,
      List.nil_append, readUnits_escape unicode fuel hne, hunit, Option.bind_some, hread, hscalars,
      toNat_ofNat_ascii hlt, h.ascii unit hlt]
    rfl
  | @unicode quad rest c text hc _ ih =>
    obtain ⟨fuel, hread⟩ := ih
    refine ⟨fuel + 1, ?_⟩
    rw [hslash, hu, List.flatMap_append, hquad hc, List.cons_append, List.cons_append,
      List.append_assoc, readUnits_unicode, hU.single quad _ c hc, Option.bind_some]
    simp only [hread, hscalars]
    rfl
  | @pair quad quad' rest lead trail c text hlead hisLead htrail hisTrail hc _ ih =>
    obtain ⟨fuel, hread⟩ := ih
    obtain ⟨fuel', hread'⟩ := hU.pair quad quad' _ lead trail c hlead hisLead htrail hisTrail hc
      fuel _ _ hread
    refine ⟨fuel', ?_⟩
    rw [hslash, hu, List.flatMap_append, hquad hlead, hslash, hu, List.flatMap_append, hquad htrail,
      hscalars, ← hread']
    simp only [List.cons_append, List.append_assoc]

/-! The escape readers. -/

theorem hexValue_eq_some {u n : Nat} (h : hexValue u = some n) :
    n < 16 ∧ Cpp.isSpace u = false ∧ u ≠ '-'.toNat ∧ u ≠ '+'.toNat ∧ u ≠ 'x'.toNat ∧ u ≠ 'X'.toNat := by
  have hall : ∀ u < 0x80, ∀ n, hexValue u = some n → n < 16 ∧ Cpp.isSpace u = false ∧
      u ≠ '-'.toNat ∧ u ≠ '+'.toNat ∧ u ≠ 'x'.toNat ∧ u ≠ 'X'.toNat := by
    intro u hu n h
    have hsome : ∀ u < 0x80, (hexValue u).isSome → (hexValue u).getD 0 < 16 ∧ Cpp.isSpace u = false ∧
        u ≠ '-'.toNat ∧ u ≠ '+'.toNat ∧ u ≠ 'x'.toNat ∧ u ≠ 'X'.toNat := by decide +kernel
    have hu' := hsome u hu (by rw [h]; rfl)
    rwa [h, Option.getD_some] at hu'
  exact hall u (hexValue_ascii (by rw [h]; rfl)) n h

theorem hexQuad_lt {quad : List Nat} {n : Nat} (h : hexQuad quad = some n) : n < 0x10000 := by
  obtain ⟨a, b, c, d, a', b', c', d', _, ha, hb, hc, hd, rfl⟩ := hexQuad_eq_some h
  have := (hexValue_eq_some ha).1
  have := (hexValue_eq_some hb).1
  have := (hexValue_eq_some hc).1
  have := (hexValue_eq_some hd).1
  omega

theorem Cpp.strtoul_hexQuad {quad : List Nat} {n : Nat} (h : hexQuad quad = some n) :
    Cpp.strtoul quad = n := by
  obtain ⟨a, b, c, d, a', b', c', d', rfl, ha, hb, hc, hd, rfl⟩ := hexQuad_eq_some h
  obtain ⟨_, hspace, hminus, hplus, _⟩ := hexValue_eq_some ha
  obtain ⟨_, _, _, _, hx, hX⟩ := hexValue_eq_some hb
  have hdrop : [a, b, c, d].dropWhile Cpp.isSpace = [a, b, c, d] := by simp [hspace]
  have hsign : dropSign [a, b, c, d] = [a, b, c, d] := by
    rw [dropSign, if_neg (not_or.mpr ⟨hminus, hplus⟩)]
  have hpre : (decide ([a, b, c, d].take 2 = ascii "0x") || decide ([a, b, c, d].take 2 = ascii "0X")) =
      false := by
    rw [Bool.or_eq_false_iff, decide_eq_false_iff_not, decide_eq_false_iff_not]
    exact ⟨fun heq => hx (List.cons.inj (List.cons.inj heq).2).1,
      fun heq => hX (List.cons.inj (List.cons.inj heq).2).1⟩
  have hnegative : ¬ [a, b, c, d].head? = some '-'.toNat := fun heq => hminus (Option.some.inj heq)
  unfold Cpp.strtoul
  simp only [hdrop, hsign, hpre, hnegative, Bool.false_and, Bool.false_eq_true, if_false]
  simp [ha, hb, hc, hd, hexSum]

theorem Cpp.appendUtf8_eq (c : Char) : Cpp.appendUtf8 c.toNat = utf8Units c.toNat := by
  have hlt := toNat_lt c
  generalize c.toNat = c at hlt
  have hlow : ∀ n : Nat, n &&& 0x3F = n % 64 := fun n => Nat.and_two_pow_sub_one_eq_mod n 6
  have hmod : ∀ n : Nat, 0x80 ||| n % 64 = 0x80 + n % 64 := fun n =>
    Cpp.or_eq_add (a := 2) (i := 6) (Nat.mod_lt n (by decide))
  have htwo : ∀ n < 32, 0xC0 ||| n = 0xC0 + n := fun n hn => Cpp.or_eq_add (a := 6) (i := 5) hn
  have hthree : ∀ n < 16, 0xE0 ||| n = 0xE0 + n := fun n hn => Cpp.or_eq_add (a := 14) (i := 4) hn
  have hfour : ∀ n < 8, 0xF0 ||| n = 0xF0 + n := fun n hn => Cpp.or_eq_add (a := 30) (i := 3) hn
  unfold Cpp.appendUtf8 utf8Units
  simp only [hlow, hmod, Nat.shiftRight_eq_div_pow]
  split
  · simp
    omega
  · split
    · rw [htwo _ (by omega)]
      simp
      omega
    · split
      · rw [hthree _ (by omega)]
        simp
        omega
      · rw [hfour _ (by omega)]
        simp
        omega

theorem Swift.scalarBytes_eq (c : Char) : Swift.scalarBytes c.toNat = utf8Units c.toNat := by
  rw [Swift.scalarBytes, if_pos (show c.toNat.isValidChar from c.valid)]

theorem readsEscapes_readPaired {value : List Nat → Option Nat} {bytes : Nat → List Nat}
    (hvalue : ∀ quad n, hexQuad quad = some n → value quad = some n)
    (hbytes : ∀ c : Char, bytes c.toNat = utf8Units c.toNat) :
    ReadsEscapes utf8Units (readPaired value bytes) := by
  constructor
  · intro quad s c hc
    have hlead : isLead c.toNat = false := by
      have := not_surrogate c
      simp [isLead]
      omega
    rw [readPaired_append value bytes quad s (hexQuad_ascii hc).1, hvalue quad _ hc, Option.bind_some,
      hlead, hbytes]
    rfl
  · intro quad quad' s lead trail c hlead hisLead htrail hisTrail hc fuel units r hread
    have hlength := (hexQuad_ascii htrail).1
    have hahead : pairAhead ('\\'.toNat :: 'u'.toNat :: (quad' ++ s)) = some quad' := by
      rw [pairAhead, if_pos ⟨by simp [hlength], rfl⟩, List.drop_succ_cons, List.drop_succ_cons,
        List.drop_zero, List.take_left' hlength]
    have hdrop : ('\\'.toNat :: 'u'.toNat :: (quad' ++ s)).drop 6 = s := by
      rw [List.drop_succ_cons, List.drop_succ_cons, List.drop_left' hlength]
    have hpoint : 0x10000 + (lead - 0xD800) <<< 10 + (trail - 0xDC00) = c.toNat := by
      rw [hc, Nat.shiftLeft_eq]
    refine ⟨fuel + 1, ?_⟩
    rw [readUnits_unicode, readPaired_append value bytes quad _ (hexQuad_ascii hlead).1,
      hvalue quad _ hlead, Option.bind_some]
    simp only [hisLead, if_true, hahead, hvalue quad' _ htrail, Option.bind_some, hisTrail, hdrop,
      hpoint, hbytes, hread]
    rfl

theorem Cpp.readsEscapes : ReadsEscapes utf8Units Cpp.readUnicode := by
  refine readsEscapes_readPaired (fun quad n h => ?_) Cpp.appendUtf8_eq
  rw [Cpp.strtoul_hexQuad h, Nat.mod_eq_of_lt (Nat.lt_trans (hexQuad_lt h) (by decide))]

theorem Swift.readsEscapes : ReadsEscapes utf8Units Swift.readUnicode := by
  refine readsEscapes_readPaired (fun quad n h => ?_) Swift.scalarBytes_eq
  rw [Swift.parseHex4_eq (hexQuad_ascii h).1, h]

theorem Java.parseInt_hexQuad {digit : Nat → Option Nat} (hdigit : AsciiDigits digit)
    {quad : List Nat} {n : Nat} (h : hexQuad quad = some n) :
    Java.parseInt digit quad = some (n : Int) := by
  rw [Java.parseInt_ascii hdigit (hexQuad_ascii h).2]
  obtain ⟨a, b, c, d, a', b', c', d', rfl, ha, hb, hc, hd, rfl⟩ := hexQuad_eq_some h
  obtain ⟨_, _, hminus, hplus, _⟩ := hexValue_eq_some ha
  simp only [Java.parseInt, if_neg hminus, if_neg hplus]
  simp [ha, hb, hc, hd, hexSum]

theorem Java.readsEscapes {digit : Nat → Option Nat} (hdigit : AsciiDigits digit) :
    ReadsEscapes utf16Units (Java.readUnicode digit) := by
  have hread : ∀ (quad s : List Nat) (n : Nat), hexQuad quad = some n →
      Java.readUnicode digit (quad ++ s) = some ([n], s) := by
    intro quad s n h
    have hlength := (hexQuad_ascii h).1
    have hlt := hexQuad_lt h
    have hmod : ((n : Int) % 2 ^ 16).toNat = n := by omega
    rw [Java.readUnicode, if_neg (by rw [List.length_append]; omega), List.take_left' hlength,
      Java.parseInt_hexQuad hdigit h, Option.map_some, List.drop_left' hlength, hmod]
  constructor
  · intro quad s c hc
    rw [hread quad s _ hc, utf16Units, if_pos (hexQuad_lt hc)]
  · intro quad quad' s lead trail c hlead hisLead htrail hisTrail hc fuel units r hunits
    have hunitsC : utf16Units c.toNat = [lead, trail] := by
      simp only [isLead, isTrail, Bool.and_eq_true, decide_eq_true_eq] at hisLead hisTrail
      have hfirst : 0xD800 + (c.toNat - 0x10000) / 1024 = lead := by omega
      have hsecond : 0xDC00 + (c.toNat - 0x10000) % 1024 = trail := by omega
      rw [utf16Units, if_neg (by omega), hfirst, hsecond]
    refine ⟨fuel + 2, ?_⟩
    rw [readUnits_unicode, hread quad _ _ hlead, Option.bind_some]
    simp only
    rw [readUnits_unicode, hread quad' _ _ htrail, Option.bind_some]
    simp only [hunits, hunitsC]
    rfl

/-! RFC texts. -/

theorem flatMap_rfcNumber {expand : Nat → List Nat} (h : Transparent expand) {l : List Nat}
    (hl : RfcNumber l) : l.flatMap expand = l := by
  refine h.flatMap_eq_self fun u hu => ?_
  have hunit := List.all_eq_true.mp (all_isNumberUnit_of_rfcNumber hl) u hu
  simp [isNumberUnit, isDigit] at hunit
  omega

theorem Body.flatMap {expand : Nat → List Nat} (h : Transparent expand) {allowed : List Nat → Prop}
    (hallowed : ∀ quad n, hexQuad quad = some n → allowed quad) {body : List Nat}
    (hbody : Body (fun quad => (hexQuad quad).isSome) body) : Body allowed (body.flatMap expand) := by
  have hraws : ∀ {raws rest : List Nat},
      (∀ u ∈ raws, 0x20 ≤ u ∧ u ≠ '"'.toNat ∧ u ≠ '\\'.toNat) → Body allowed rest →
        Body allowed (raws ++ rest) := by
    intro raws rest hall hrest
    induction raws with
    | nil => exact hrest
    | cons u raws ih =>
      obtain ⟨hcontrol, hquote, hslash⟩ := hall u List.mem_cons_self
      exact .raw hcontrol hquote hslash (ih fun u hu => hall u (List.mem_cons_of_mem _ hu))
  have hslash : expand '\\'.toNat = ['\\'.toNat] := h.ascii _ (by decide)
  have hu : expand 'u'.toNat = ['u'.toNat] := h.ascii _ (by decide)
  induction hbody with
  | nil => exact .nil
  | @raw u rest hcontrol hquote hbackslash _ ih =>
    refine hraws (fun w hw => ?_) ih
    by_cases hlt : u < 0x80
    · rw [h.ascii u hlt, List.mem_singleton] at hw
      exact hw ▸ ⟨hcontrol, hquote, hbackslash⟩
    · have hwide := (h.wide u (by omega)).2 w hw
      have hq : '"'.toNat = 34 := rfl
      have hs : '\\'.toNat = 92 := rfl
      omega
  | @simple e unit rest hunit _ ih =>
    rw [List.flatMap_cons, hslash, List.flatMap_cons, h.ascii e (simpleEscape_ascii hunit).1]
    exact .simple hunit ih
  | @unicode quad rest hlength hquad _ ih =>
    obtain ⟨n, hn⟩ := Option.isSome_iff_exists.mp hquad
    rw [List.flatMap_cons, hslash, List.flatMap_cons, hu, List.flatMap_append,
      h.flatMap_eq_self (hexQuad_ascii hn).2]
    have hread : Body allowed ('\\'.toNat :: 'u'.toNat :: (quad ++ rest.flatMap expand)) :=
      .unicode hlength (hallowed quad n hn) ih
    exact hread

/-- A text of the RFC is a text of a wider grammar, in the units of an encoding. -/
theorem isText_of_rfc {expand : Nat → List Nat} (h : Transparent expand) {number : List Nat → Prop}
    {allowed : List Nat → Prop} (hnumber : ∀ l, RfcNumber l → number l)
    (hallowed : ∀ quad n, hexQuad quad = some n → allowed quad) {s : List Nat} (hs : IsText rfc s) :
    IsText (grammar number fun body (_ : Unit) => Body allowed body) (s.flatMap expand) := by
  have hlifts : Lifts expand (id : Unit → Unit) (id : Unit → Unit) (id : Unit → Unit)
      (id : Unit → Unit) rfc (grammar number fun body (_ : Unit) => Body allowed body) := by
    refine ⟨fun l n hl => ?_, fun l d hl => ⟨d, rfl, ?_⟩, fun body text hbody => ⟨text, rfl, ?_⟩⟩
    · rw [flatMap_rfcNumber h hl.1]
      exact ⟨hnumber l hl.1, hl.2⟩
    · rw [flatMap_rfcNumber h hl.1]
      exact ⟨hnumber l hl.1, hl.2⟩
    · exact hbody.flatMap h hallowed
  obtain ⟨v, hspaced⟩ := hs
  obtain ⟨v₁, _, hspaced₁⟩ := hspaced.lift h (Spells.lift h hlifts v)
  exact ⟨v₁, hspaced₁⟩

/-- A text whose strings denote is read as the value that it spells, but for its fractional
numbers. -/
theorem parse_denoting {R : Reader T D} (hR : R.Lawful) {expand : Nat → List Nat}
    (h : Transparent expand) {encode : List Char → T} (hencode : encode.Injective)
    {number body : List Nat → Prop} (hreads : Reads R number body)
    (hnumber : ∀ l, RfcNumber l → number l)
    (htext : ∀ body text, Denotes body text → R.tokens.text (body.flatMap expand) (encode text))
    (hcollect : ∀ ms : List (T × JsonValue T D), (ms.map Prod.fst).Nodup → R.collect ms = ms)
    {v : JsonValue (List Char) Unit} {s : List Nat} (hs : Spaced (Spells rfcDenoting v) s)
    (hv : v.Distinct) :
    (parse R (s.flatMap expand)).map (JsonValue.map id fun _ => ()) = some (v.map encode id) := by
  have hlifts : Lifts expand (id : T → T) (fun _ : D => ()) encode (id : Unit → Unit) rfcDenoting
      R.tokens := by
    refine ⟨fun l n hl => ?_, fun l _ hl => ?_, fun body text hbody => ⟨_, rfl, htext _ _ hbody⟩⟩
    · rw [flatMap_rfcNumber h hl.1]
      exact (hreads.int l n).mpr ⟨hnumber l hl.1, hl.2⟩
    · obtain ⟨d, hd⟩ := (hreads.dec l).mpr ⟨hnumber l hl.1, hl.2⟩
      exact ⟨d, rfl, by rwa [flatMap_rfcNumber h hl.1]⟩
  obtain ⟨raw, hraw, hspaced⟩ := hs.lift h (Spells.lift h hlifts v)
  have hdistinct : raw.Distinct := by
    rw [← distinct_map Function.injective_id fun _ : D => (), hraw]
    exact (distinct_map hencode id).mpr hv
  have hparse : parse R (s.flatMap expand) = some raw :=
    (parse_eq_some_iff hR).mpr ⟨raw, hspaced, (rebuild_eq_self hcollect hdistinct).symm⟩
  rw [hparse, Option.map_some, hraw]

theorem readString_denotes {expand : Nat → List Nat} (h : Transparent expand)
    {unicode : List Nat → Option (List Nat × List Nat)} (hU : EscapeLaw unicode)
    (hE : ReadsEscapes expand unicode) {body : List Nat} {text : List Char}
    (hbody : Denotes body text) :
    readString unicode (body.flatMap expand ++ ['"'.toNat]) =
      some ((scalars text).flatMap expand, []) := by
  obtain ⟨fuel, hread⟩ := readUnits_of_denotes h hE hbody []
  exact readString_of_readUnits hU hread

/-! The three parsers. -/

section Parsers
variable {A B C : Type} (strtod : List Nat → A) (digit : Nat → Option Nat)
  (parseDouble : List Nat → B) (double : List Nat → C)

/-- The parsers accept a text exactly if the RFC does, and where its strings denote and its names
are distinct they read the same value. -/
structure ParsersFollow (text : List Char) : Prop where
  cpp : (Cpp.parse strtod (utf8 text)).isSome ↔ IsText rfc (scalars text)
  java : (Java.parse digit parseDouble (utf16 text)).isSome ↔ IsText rfc (scalars text)
  swift : (Swift.parse double (scalars text)).isSome ↔ IsText rfc (scalars text)
  agree : ∀ v : JsonValue (List Char) Unit, Spaced (Spells rfcDenoting v) (scalars text) →
    v.Distinct →
      (Cpp.parse strtod (utf8 text)).map (JsonValue.map id fun _ => ()) = some (v.map utf8 id) ∧
        (Java.parse digit parseDouble (utf16 text)).map (JsonValue.map id fun _ => ()) =
          some (v.map utf16 id) ∧
        (Swift.parse double (scalars text)).map (JsonValue.map id fun _ => ()) = some v

/-- The text is one of a wider grammar. -/
def Lenient (text : List Char) : Prop :=
  IsText Cpp.lenient (utf8 text) ∨ IsText (Java.lenient digit) (utf16 text) ∨
    IsText Swift.lenient (utf8 text)

variable {digit}

theorem Cpp.parse_isSome_iff (text : List Char) :
    (Cpp.parse strtod (utf8 text)).isSome ↔ IsText Cpp.lenient (utf8 text) :=
  Sdk.parse_isSome_iff (Cpp.lawful_reader strtod) (Cpp.reads strtod) _

theorem Java.parse_isSome_iff (hdigit : AsciiDigits digit) (text : List Char) :
    (Java.parse digit parseDouble (utf16 text)).isSome ↔ IsText (Java.lenient digit) (utf16 text) :=
  Sdk.parse_isSome_iff (Java.lawful_reader hdigit parseDouble) (Java.reads hdigit parseDouble) _

theorem Swift.parse_isSome_iff (text : List Char) :
    (Swift.parse double (scalars text)).isSome ↔ IsText Swift.lenient (utf8 text) :=
  Sdk.parse_isSome_iff (Swift.lawful_reader double) (Swift.reads double) _

/-- Every text of the RFC is one of each wider grammar. -/
theorem lenient_of_rfc (hdigit : AsciiDigits digit) {text : List Char}
    (h : IsText rfc (scalars text)) :
    IsText Cpp.lenient (utf8 text) ∧ IsText (Java.lenient digit) (utf16 text) ∧
      IsText Swift.lenient (utf8 text) := by
  refine ⟨?_, ?_, ?_⟩
  · exact isText_of_rfc transparent_utf8
      (fun l hl => numberRun_of_decimalRun (decimalRun_of_rfcNumber hl)) (fun _ _ _ => trivial) h
  · exact isText_of_rfc transparent_utf16 (fun l hl => decimalRun_of_rfcNumber hl)
      (fun quad n hn => by rw [Java.parseInt_hexQuad hdigit hn]; rfl) h
  · exact isText_of_rfc transparent_utf8 (fun l hl => decimalRun_of_rfcNumber hl)
      (fun quad n hn => by rw [hn]; rfl) h

theorem parsers_agree (hdigit : AsciiDigits digit) {text : List Char}
    {v : JsonValue (List Char) Unit} (h : Spaced (Spells rfcDenoting v) (scalars text))
    (hv : v.Distinct) :
    (Cpp.parse strtod (utf8 text)).map (JsonValue.map id fun _ => ()) = some (v.map utf8 id) ∧
      (Java.parse digit parseDouble (utf16 text)).map (JsonValue.map id fun _ => ()) =
        some (v.map utf16 id) ∧
      (Swift.parse double (scalars text)).map (JsonValue.map id fun _ => ()) = some v := by
  refine ⟨?_, ?_, ?_⟩
  · exact parse_denoting (Cpp.lawful_reader strtod) transparent_utf8 utf8_injective
      (Cpp.reads strtod) (fun l hl => numberRun_of_decimalRun (decimalRun_of_rfcNumber hl))
      (fun body text hbody =>
        readString_denotes transparent_utf8 Cpp.escapeLaw Cpp.readsEscapes hbody)
      (fun _ _ => rfl) h hv
  · exact parse_denoting (Java.lawful_reader hdigit parseDouble) transparent_utf16 utf16_injective
      (Java.reads hdigit parseDouble) (fun l hl => decimalRun_of_rfcNumber hl)
      (fun body text hbody => readString_denotes transparent_utf16 (Java.escapeLaw hdigit)
        (Java.readsEscapes hdigit) hbody)
      (fun _ hnodup => Java.linkedMap_eq_self hnodup) h hv
  · have hswift := parse_denoting (Swift.lawful_reader double) transparent_utf8
      Function.injective_id (Swift.reads double) (fun l hl => decimalRun_of_rfcNumber hl)
      (fun body text hbody => ?_) (fun _ _ => rfl) h hv
    · rwa [map_id] at hswift
    · have hread := readString_denotes transparent_utf8 Swift.escapeLaw Swift.readsEscapes hbody
      refine Option.map_eq_some_iff.mpr ⟨_, hread, ?_⟩
      exact congrArg (fun text => (text, [])) (decodeUtf8_utf8 text)

/-- The parsers follow the RFC on its own texts and on the texts that none of them takes. -/
theorem parsersFollow_iff (hdigit : AsciiDigits digit) (text : List Char) :
    ParsersFollow strtod digit parseDouble double text ↔
      (IsText rfc (scalars text) ∨ ¬ Lenient digit text) := by
  have hcpp := Cpp.parse_isSome_iff strtod text
  have hjava := Java.parse_isSome_iff parseDouble hdigit text
  have hswift := Swift.parse_isSome_iff double text
  constructor
  · intro h
    by_cases hrfc : IsText rfc (scalars text)
    · exact Or.inl hrfc
    · refine Or.inr ?_
      rintro (hlenient | hlenient | hlenient)
      · exact hrfc (h.cpp.mp (hcpp.mpr hlenient))
      · exact hrfc (h.java.mp (hjava.mpr hlenient))
      · exact hrfc (h.swift.mp (hswift.mpr hlenient))
  · intro h
    have hiff : ∀ {lenient : Prop}, (lenient → Lenient digit text) →
        (IsText rfc (scalars text) → lenient) → (lenient ↔ IsText rfc (scalars text)) :=
      fun hin hout => ⟨fun hl => h.resolve_right (not_not.mpr (hin hl)), hout⟩
    have hall : IsText rfc (scalars text) → IsText Cpp.lenient (utf8 text) ∧
        IsText (Java.lenient digit) (utf16 text) ∧ IsText Swift.lenient (utf8 text) :=
      lenient_of_rfc hdigit
    exact ⟨hcpp.trans (hiff Or.inl fun hrfc => (hall hrfc).1),
      hjava.trans (hiff (fun hl => Or.inr (Or.inl hl)) fun hrfc => (hall hrfc).2.1),
      hswift.trans (hiff (fun hl => Or.inr (Or.inr hl)) fun hrfc => (hall hrfc).2.2),
      fun v hv hdistinct => parsers_agree strtod parseDouble double hdigit hv hdistinct⟩

end Parsers

/-! A number with a leading zero. -/

/-- A text of digits alone can only be a number. -/
theorem rfcNumber_of_digits {s : List Nat} (hdigits : ∀ u ∈ s, isDigit u) (h : IsText rfc s) :
    RfcNumber s := by
  obtain ⟨v, before, core, after, rfl, hbefore, hafter, hv⟩ := h
  have hclear : ∀ l : List Nat, (∀ u ∈ l, isDigit u) → l.all isSpace → l = [] := by
    intro l hl hspace
    cases l with
    | nil => rfl
    | cons u l =>
      have hdigit := hl u List.mem_cons_self
      have hu := List.all_eq_true.mp hspace u List.mem_cons_self
      simp [isSpace] at hu
      rcases hu with ((rfl | rfl) | rfl) | rfl <;> cases hdigit
  obtain rfl := hclear before (fun u hu => hdigits u (by simp [hu])) hbefore
  obtain rfl := hclear after (fun u hu => hdigits u (by simp [hu])) hafter
  rw [List.nil_append, List.append_nil] at hdigits ⊢
  have hstart : ∀ u l, core = u :: l → isDigit u := by
    intro u l hl
    exact hdigits u (hl ▸ List.mem_cons_self)
  cases v with
  | null => cases hstart 'n'.toNat _ hv
  | bool flag =>
    cases flag with
    | false => cases hstart 'f'.toNat _ hv
    | true => cases hstart 't'.toNat _ hv
  | int number => exact hv.1
  | dec number => exact hv.1
  | str text =>
    obtain ⟨body, hbody, _⟩ := hv
    cases hstart _ _ hbody
  | arr elements =>
    obtain ⟨body, hbody, _⟩ := hv
    cases hstart _ _ hbody
  | obj members =>
    obtain ⟨body, hbody, _⟩ := hv
    cases hstart _ _ hbody

/-- No digit follows a leading zero. -/
theorem rfcNumber_leadingZero {u : Nat} {rest : List Nat} (h : RfcNumber ('0'.toNat :: u :: rest)) :
    ¬ isDigit u := by
  obtain ⟨sign, whole, fraction, exponent, heq, hsign, hwhole, hzero, hfraction, hexponent⟩ := h
  obtain rfl : sign = [] := by
    refine hsign.resolve_right ?_
    rintro rfl
    cases (List.cons.inj heq).1
  cases whole with
  | nil => exact absurd rfl hwhole.1
  | cons w whole =>
    obtain ⟨rfl, hrest⟩ := List.cons.inj heq
    obtain rfl := (List.cons.inj (hzero rfl)).2
    rcases hfraction with rfl | ⟨digits, rfl, _⟩
    · rcases hexponent with rfl | ⟨e, sign, digits, rfl, he, _⟩
      · cases hrest
      · obtain ⟨rfl, _⟩ := List.cons.inj hrest
        rcases he with rfl | rfl <;> decide
    · obtain ⟨rfl, _⟩ := List.cons.inj hrest
      decide

theorem leadingZero_not_followed :
    ¬ ParsersFollow (fun _ => ()) hexValue (fun _ => ()) (fun _ => ()) ['0', '1'] := by
  intro h
  have haccepts : (Cpp.parse (fun _ => ()) (utf8 ['0', '1'])).isSome := by decide +kernel
  have hnumber := rfcNumber_of_digits (by decide) (h.cpp.mp haccepts)
  exact absurd (by decide) (rfcNumber_leadingZero hnumber)

/-- An array with an escape in a string is of the RFC, and the parsers follow it there. -/
theorem escaped_followed :
    ParsersFollow (fun _ => ()) hexValue (fun _ => ()) (fun _ => ())
      ['[', '"', '\\', 'n', '"', ',', '-', '0', ']'] := by
  refine (parsersFollow_iff _ _ _ (fun _ _ => rfl : AsciiDigits hexValue) _).mpr (Or.inl ?_)
  have hminus : RfcNumber ['-'.toNat, '0'.toNat] :=
    ⟨['-'.toNat], ['0'.toNat], [], [], rfl, Or.inr rfl, ⟨by simp, by decide⟩, fun _ => rfl,
      Or.inl rfl, Or.inl rfl⟩
  have htext : Spells rfc (.str () : JsonValue Unit Unit) ['"'.toNat, '\\'.toNat, 'n'.toNat, '"'.toNat] :=
    ⟨['\\'.toNat, 'n'.toNat], rfl, .simple rfl .nil⟩
  have hspaced : ∀ {P : List Nat → Prop} {l : List Nat}, P l → Spaced P l :=
    fun {_ l} hl => ⟨[], l, [], by simp, rfl, rfl, hl⟩
  refine ⟨.arr [.str (), .int 0], hspaced ?_⟩
  exact ⟨_, rfl, Or.inr ⟨_, _, rfl, by simp, hspaced htext,
    Or.inl ⟨rfl, hspaced ⟨hminus, by decide +kernel⟩⟩⟩⟩

end Sdk

end AuruPm
