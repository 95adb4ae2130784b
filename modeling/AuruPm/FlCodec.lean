import AuruPm.FlStream
import AuruPm.Lib.Varint

/-!
# Round trips of FL Studio projects

Decoding accepts every spelling of an event's length and ignores what follows the data chunk.
Encoding writes the shortest spelling and nothing after the chunk.
-/

namespace AuruPm

set_option autoImplicit false

namespace FlStudio

/-! Numbers. -/

theorem length_toLeBytes (n value : Nat) : (toLeBytes n value).length = n := by
  induction n generalizing value with
  | zero => rfl
  | succ n ih => rw [toLeBytes, List.length_cons, ih]

theorem fromLeBytes_toLeBytes {n value : Nat} (h : value < 256 ^ n) :
    fromLeBytes (toLeBytes n value) = value := by
  induction n generalizing value with
  | zero =>
    rw [Nat.pow_zero] at h
    rw [toLeBytes, fromLeBytes, List.foldr_nil]
    omega
  | succ n ih =>
    rw [Nat.pow_succ] at h
    have htail : fromLeBytes (toLeBytes n (value / 256)) = value / 256 := ih (by omega)
    have hbyte : value.toUInt8.toNat = value % 256 := rfl
    unfold fromLeBytes at htail
    rw [toLeBytes, fromLeBytes, List.foldr_cons, htail, hbyte]
    omega

theorem fromLeBytes_lt (bytes : List UInt8) : fromLeBytes bytes < 256 ^ bytes.length := by
  induction bytes with
  | nil => exact Nat.one_pos
  | cons b bytes ih =>
    have hbyte := b.toNat_lt
    unfold fromLeBytes at ih
    rw [fromLeBytes, List.foldr_cons, List.length_cons, Nat.pow_succ]
    omega

theorem toLeBytes_fromLeBytes (bytes : List UInt8) :
    toLeBytes bytes.length (fromLeBytes bytes) = bytes := by
  induction bytes with
  | nil => rfl
  | cons b bytes ih =>
    have hbyte := b.toNat_lt
    unfold fromLeBytes at ih
    rw [fromLeBytes, List.foldr_cons, List.length_cons, toLeBytes]
    have hlow : (b.toNat + 256 * bytes.foldr (fun b n => b.toNat + 256 * n) 0).toUInt8 = b := by
      apply UInt8.toNat_inj.mp
      change (b.toNat + 256 * bytes.foldr (fun b n => b.toNat + 256 * n) 0) % 256 = b.toNat
      omega
    have hhigh : (b.toNat + 256 * bytes.foldr (fun b n => b.toNat + 256 * n) 0) / 256 =
        bytes.foldr (fun b n => b.toNat + 256 * n) 0 := by omega
    rw [hlow, hhigh, ih]

theorem take_ok_iff {n : Nat} {source bytes rest : List UInt8} :
    take n source = .ok (bytes, rest) ↔ source = bytes ++ rest ∧ bytes.length = n := by
  unfold take
  split
  · rename_i hshort
    constructor
    · intro h
      cases h
    · intro ⟨heq, hlength⟩
      rw [heq, List.length_append] at hshort
      omega
  · rename_i hlong
    rw [List.splitAt_eq, Except.ok.injEq, Prod.mk.injEq]
    constructor
    · rintro ⟨rfl, rfl⟩
      refine ⟨(List.take_append_drop n source).symm, ?_⟩
      rw [List.length_take]
      omega
    · rintro ⟨rfl, rfl⟩
      exact ⟨List.take_left, List.drop_left⟩

theorem takeNumber_ok_iff {n value : Nat} {what : String} {source rest : List UInt8} :
    takeNumber n what source = .ok (value, rest) ↔
      source = toLeBytes n value ++ rest ∧ value < 256 ^ n := by
  unfold takeNumber
  constructor
  · intro h
    split at h
    · cases h
    · rename_i bytes after htake
      cases h
      obtain ⟨rfl, rfl⟩ := take_ok_iff.mp htake
      rw [toLeBytes_fromLeBytes]
      exact ⟨rfl, fromLeBytes_lt bytes⟩
  · rintro ⟨rfl, hlt⟩
    rw [take_ok_iff.mpr ⟨rfl, length_toLeBytes n value⟩]
    simp only [fromLeBytes_toLeBytes hlt]

/-! Lengths. -/

theorem writeVarint_eq (n : Nat) : writeVarint n = Varint.write n := by
  induction n using Nat.strongRecOn with
  | ind n ih =>
    have hmod : n &&& 0x7f = n % 128 := Nat.and_two_pow_sub_one_eq_mod n 7
    have hdiv : n >>> 7 = n / 128 := Nat.shiftRight_eq_div_pow n 7
    rw [writeVarint, Varint.write, hmod, hdiv]
    split
    · rfl
    · have hbyte : (n % 128).toUInt8 ||| 0x80 = (n % 128 + 128).toUInt8 := by
        apply UInt8.toNat_inj.mp
        rw [UInt8.toNat_or, Varint.toNat_toUInt8 (by omega), Varint.toNat_toUInt8 (by omega)]
        have hor := Nat.two_pow_add_eq_or_of_lt (show n % 128 < 2 ^ 7 by omega) 1
        rw [Nat.or_comm] at hor
        exact hor.symm.trans (by omega)
      simp only [hbyte, ih (n / 128) (by omega)]

theorem sevenBits (b : UInt8) : b.toNat &&& 0x7f = b.toNat % 128 :=
  Nat.and_two_pow_sub_one_eq_mod b.toNat 7

theorem continues_iff (b : UInt8) : b.toNat &&& 0x80 = 0 ↔ b.toNat < 128 := by
  have hall : ∀ i : Fin 256, i.val &&& 0x80 = 0 ↔ i.val < 128 := by decide +kernel
  exact hall ⟨b.toNat, b.toNat_lt⟩

theorem or_shift {value shift low : Nat} (h : value < 2 ^ shift) :
    value ||| (low <<< shift) = value + 2 ^ shift * low := by
  rw [Nat.shiftLeft_eq, Nat.mul_comm low, Nat.or_comm, ← Nat.two_pow_add_eq_or_of_lt h]
  omega

/-- Five bytes of a length are read, and any spelling is taken. -/
theorem readVarint_ok_iff {value shift n : Nat} {source rest : List UInt8}
    (hvalue : value < 2 ^ shift) :
    readVarint value shift source = .ok (n, rest) ↔ ∃ bs m, source = bs ++ rest ∧
      Varint.Spells bs m ∧ n = value + 2 ^ shift * m ∧ shift + 7 * bs.length ≤ 35 := by
  induction source generalizing value shift with
  | nil =>
    constructor
    · intro h
      cases h
    · rintro ⟨bs, m, heq, hs, -⟩
      obtain ⟨rfl, -⟩ := List.append_eq_nil_iff.mp heq.symm
      exact absurd rfl hs.ne_nil
  | cons b source ih =>
    have hbyte := b.toNat_lt
    rw [readVarint]
    by_cases hshift : 28 < shift
    · rw [if_pos hshift]
      constructor
      · intro h
        cases h
      · intro ⟨bs, m, heq, hs, hn, hlength⟩
        have hpos := List.length_pos_iff.mpr hs.ne_nil
        omega
    · rw [if_neg hshift]
      simp only [sevenBits, or_shift hvalue, continues_iff]
      by_cases hlast : b.toNat < 128
      · rw [if_pos hlast, Except.ok.injEq, Prod.mk.injEq, Nat.mod_eq_of_lt hlast]
        constructor
        · rintro ⟨rfl, rfl⟩
          refine ⟨[b], b.toNat, rfl, .last hlast, rfl, ?_⟩
          rw [List.length_singleton]
          omega
        · rintro ⟨bs, m, heq, hs, rfl, -⟩
          obtain ⟨rfl, rfl⟩ := (Varint.Spells.last hlast).append_inj hs heq
          rw [(Varint.Spells.last hlast).unique hs]
          exact ⟨rfl, rfl⟩
      · rw [if_neg hlast]
        have hpow : 2 ^ (shift + 7) = 2 ^ shift * 128 := Nat.pow_add 2 shift 7
        have hpos : 0 < 2 ^ shift := Nat.two_pow_pos shift
        have hnext : value + 2 ^ shift * (b.toNat % 128) < 2 ^ (shift + 7) := by
          have hle : 2 ^ shift * (b.toNat % 128) ≤ 2 ^ shift * 127 :=
            Nat.mul_le_mul_left _ (by omega)
          omega
        have hsum (m : Nat) : value + 2 ^ shift * (b.toNat % 128) + 2 ^ (shift + 7) * m =
            value + 2 ^ shift * (b.toNat - 128 + 128 * m) := by
          have hlow : b.toNat % 128 = b.toNat - 128 := by omega
          rw [hpow, hlow, Nat.mul_add, Nat.mul_assoc, Nat.add_assoc]
        rw [ih hnext]
        constructor
        · rintro ⟨bs, m, rfl, hs, rfl, hlength⟩
          refine ⟨b :: bs, b.toNat - 128 + 128 * m, rfl, .more (by omega) hs, hsum m, ?_⟩
          rw [List.length_cons]
          omega
        · rintro ⟨bs, m, heq, hs, rfl, hlength⟩
          cases hs with
          | last hb =>
            obtain ⟨rfl, -⟩ := List.cons.inj heq
            exact absurd hb hlast
          | @more c bs m hc hs =>
            obtain ⟨rfl, rfl⟩ := List.cons.inj heq
            refine ⟨bs, m, rfl, hs, (hsum m).symm, ?_⟩
            rw [List.length_cons] at hlength
            omega

/-! Events. -/

/-- The bytes before a payload: nothing where the id fixes its width, else some spelling of its
length. -/
def Event.Prefixed (event : Event) (spelling : List UInt8) : Prop :=
  match Event.fixedLen event.id with
  | some width => spelling = [] ∧ event.payload.length = width
  | none => Varint.Spells spelling event.payload.length ∧ spelling.length ≤ 5

/-- The bytes of a list of events, with their lengths spelled in any way. -/
inductive Written : List UInt8 → List Event → Prop
  | nil : Written [] []
  | cons {event : Event} {spelling rest : List UInt8} {events : List Event}
    (hspelling : event.Prefixed spelling) (hrest : Written rest events) :
    Written (event.id :: (spelling ++ (event.payload ++ rest))) (event :: events)

theorem eventLength_ok_iff {id : UInt8} {body rest : List UInt8} {length : Nat} :
    eventLength id body = .ok (length, rest) ↔ ∃ spelling, body = spelling ++ rest ∧
      match Event.fixedLen id with
      | some width => spelling = [] ∧ length = width
      | none => Varint.Spells spelling length ∧ spelling.length ≤ 5 := by
  unfold eventLength
  cases Event.fixedLen id with
  | some width =>
    simp only [Except.ok.injEq, Prod.mk.injEq]
    constructor
    · rintro ⟨rfl, rfl⟩
      exact ⟨[], rfl, rfl, rfl⟩
    · rintro ⟨spelling, rfl, rfl, rfl⟩
      exact ⟨rfl, rfl⟩
  | none =>
    simp only [readVarint_ok_iff (show 0 < 2 ^ 0 by decide), Nat.pow_zero, Nat.one_mul, Nat.zero_add]
    constructor
    · rintro ⟨spelling, n, rfl, hs, rfl, hlength⟩
      exact ⟨spelling, rfl, hs, by omega⟩
    · rintro ⟨spelling, rfl, hs, hlength⟩
      exact ⟨spelling, length, rfl, hs, rfl, by omega⟩

/-- The event loop reads what is written, up to the limit on events. -/
theorem decodeEvents_ok_iff {fuel count : Nat} {body : List UInt8} {events : List Event}
    (hfuel : body.length ≤ fuel) (hcount : count ≤ maxEvents) :
    decodeEvents fuel count body = .ok events ↔
      Written body events ∧ count + events.length ≤ maxEvents := by
  induction fuel generalizing count body events with
  | zero =>
    obtain rfl := List.length_eq_zero_iff.mp (Nat.le_zero.mp hfuel)
    rw [decodeEvents, Except.ok.injEq]
    constructor
    · rintro rfl
      exact ⟨.nil, hcount⟩
    · rintro ⟨⟨⟩, -⟩
      rfl
  | succ fuel ih =>
    cases body with
    | nil =>
      rw [decodeEvents, Except.ok.injEq]
      constructor
      · rintro rfl
        exact ⟨.nil, hcount⟩
      · rintro ⟨⟨⟩, -⟩
        rfl
    | cons id body =>
      rw [List.length_cons] at hfuel
      rw [decodeEvents]
      by_cases hmany : maxEvents ≤ count
      · rw [if_pos hmany]
        constructor
        · intro h
          cases h
        · rintro ⟨hwritten, hlength⟩
          cases hwritten with
          | cons hspelling hrest =>
            rw [List.length_cons] at hlength
            omega
      · rw [if_neg hmany]
        simp only [bind_ok_iff]
        constructor
        · rintro ⟨⟨length, rest⟩, hlength, h⟩
          obtain ⟨spelling, rfl, hspelling⟩ := eventLength_ok_iff.mp hlength
          simp only at h
          split at h
          · cases h
          · rename_i hlong
            obtain ⟨events', hevents, h⟩ := bind_ok_iff.mp h
            cases h
            rw [List.length_append] at hfuel
            obtain ⟨hwritten, hcount'⟩ := (ih (by rw [List.length_drop]; omega) (by omega)).mp hevents
            have hpayload : (rest.take length).length = length := by
              rw [List.length_take]
              omega
            have hprefixed : Event.Prefixed ⟨id, rest.take length⟩ spelling := by
              unfold Event.Prefixed
              simp only [hpayload]
              exact hspelling
            refine ⟨?_, by rw [List.length_cons]; omega⟩
            have hcons := Written.cons hprefixed hwritten
            rwa [List.take_append_drop] at hcons
        · rintro ⟨hwritten, hlength⟩
          cases hwritten with
          | @cons event spelling rest events hspelling hrest =>
            refine ⟨(event.payload.length, event.payload ++ rest),
              eventLength_ok_iff.mpr ⟨spelling, rfl, ?_⟩, ?_⟩
            · unfold Event.Prefixed at hspelling
              exact hspelling
            · rw [List.length_cons] at hlength
              rw [List.length_append, List.length_append] at hfuel
              have hevents := (ih (by omega) (by omega)).mpr
                ⟨hrest, show count + 1 + events.length ≤ maxEvents by omega⟩
              rw [if_neg (by rw [List.length_append]; omega), List.drop_left, hevents,
                List.take_left]
              rfl

/-! The container. -/

/-- Everything before the length of the data chunk. -/
def Header.encode (header : Header) : List UInt8 :=
  headerMagic ++ toLeBytes 4 headerLen ++ toLeBytes 2 header.format.toUInt16.toNat ++
    toLeBytes 2 header.channels.toNat ++ toLeBytes 2 header.ppq.toNat ++ dataMagic

theorem Stream.encode_eq (stream : Stream) : stream.encode = stream.header.encode ++
    (toLeBytes 4 stream.encodeBody.length ++ stream.encodeBody) := by
  simp only [Stream.encode, Header.encode, List.append_assoc]

theorem length_headerEncode (header : Header) : header.encode.length = 18 := by
  simp [Header.encode, length_toLeBytes, headerMagic, dataMagic]

theorem readHeader_eq (header : Header) :
    (⟨header.format.toUInt16.toNat.toUInt16.toInt16, header.channels.toNat.toUInt16,
      header.ppq.toNat.toUInt16⟩ : Header) = header := by
  simp

/-- What a decoded project looks like. -/
theorem decode_ok_iff {source : List UInt8} {stream : Stream} :
    Stream.decode source = .ok stream ↔ source.length ≤ maxFlpBytes ∧ ∃ body trailing,
      source = stream.header.encode ++ (toLeBytes 4 body.length ++ (body ++ trailing)) ∧
      Written body stream.events ∧ stream.events.length ≤ maxEvents := by
  unfold Stream.decode
  by_cases hsize : maxFlpBytes < source.length
  · rw [if_pos hsize]
    constructor
    · intro h
      cases h
    · intro ⟨hle, _⟩
      omega
  · rw [if_neg hsize]
    simp only [bind_ok_iff]
    constructor
    · rintro ⟨⟨magic, source₁⟩, hmagic, h⟩
      obtain ⟨rfl, hlength⟩ := take_ok_iff.mp hmagic
      simp only at h
      split at h
      · cases h
      rename_i heq
      obtain rfl := not_not.mp heq
      rw [bind_ok_iff] at h
      obtain ⟨⟨length, source₂⟩, hheader, h⟩ := h
      obtain ⟨rfl, -⟩ := takeNumber_ok_iff.mp hheader
      simp only at h
      split at h
      · cases h
      rename_i heq
      obtain rfl := not_not.mp heq
      simp only [bind_ok_iff] at h
      obtain ⟨⟨format, source₃⟩, hformat, ⟨channels, source₄⟩, hchannels, ⟨ppq, source₅⟩, hppq,
        ⟨magic, source₆⟩, hdata, h⟩ := h
      obtain ⟨rfl, hformatLt⟩ := takeNumber_ok_iff.mp hformat
      obtain ⟨rfl, hchannelsLt⟩ := takeNumber_ok_iff.mp hchannels
      obtain ⟨rfl, hppqLt⟩ := takeNumber_ok_iff.mp hppq
      obtain ⟨rfl, -⟩ := take_ok_iff.mp hdata
      simp only at h
      split at h
      · cases h
      rename_i heq
      obtain rfl := not_not.mp heq
      simp only [bind_ok_iff] at h
      obtain ⟨⟨size, source₇⟩, hbody, ⟨body, trailing⟩, htake, events, hevents, h⟩ := h
      obtain ⟨rfl, -⟩ := takeNumber_ok_iff.mp hbody
      obtain ⟨rfl, rfl⟩ := take_ok_iff.mp htake
      cases h
      obtain ⟨hwritten, hcount⟩ := (decodeEvents_ok_iff (Nat.le_refl _) (Nat.zero_le _)).mp hevents
      rw [Nat.zero_add] at hcount
      refine ⟨Nat.le_of_not_lt hsize, body, trailing, ?_, hwritten, hcount⟩
      have hnumbers : (format.toUInt16.toInt16.toUInt16.toNat, channels.toUInt16.toNat,
          ppq.toUInt16.toNat) = (format, channels, ppq) := by
        simp only [UInt16.toUInt16_toInt16, Prod.mk.injEq]
        exact ⟨Nat.mod_eq_of_lt hformatLt, Nat.mod_eq_of_lt hchannelsLt, Nat.mod_eq_of_lt hppqLt⟩
      simp only [Prod.mk.injEq] at hnumbers
      simp only [Header.encode, hnumbers, List.append_assoc]
    · rintro ⟨-, body, trailing, rfl, hwritten, hcount⟩
      have hbody : body.length < 256 ^ 4 := by
        rw [List.length_append, List.length_append, List.length_append] at hsize
        have hmax : maxFlpBytes < 256 ^ 4 := by decide
        omega
      simp only [Header.encode, List.append_assoc]
      refine ⟨(headerMagic, _), take_ok_iff.mpr ⟨rfl, rfl⟩, ?_⟩
      rw [if_neg (not_not.mpr rfl)]
      refine bind_ok_iff.mpr ⟨(headerLen, _), takeNumber_ok_iff.mpr ⟨rfl, by decide⟩, ?_⟩
      rw [if_neg (not_not.mpr rfl)]
      simp only [bind_ok_iff]
      refine ⟨(_, _), takeNumber_ok_iff.mpr ⟨rfl, UInt16.toNat_lt _⟩, (_, _),
        takeNumber_ok_iff.mpr ⟨rfl, UInt16.toNat_lt _⟩, (_, _),
        takeNumber_ok_iff.mpr ⟨rfl, UInt16.toNat_lt _⟩, (dataMagic, _),
        take_ok_iff.mpr ⟨rfl, rfl⟩, ?_⟩
      rw [if_neg (not_not.mpr rfl)]
      simp only [bind_ok_iff]
      refine ⟨(body.length, _), takeNumber_ok_iff.mpr ⟨rfl, hbody⟩, (body, trailing),
        take_ok_iff.mpr ⟨rfl, rfl⟩, stream.events,
        (decodeEvents_ok_iff (Nat.le_refl _) (Nat.zero_le _)).mpr ⟨hwritten, by omega⟩, ?_⟩
      rw [readHeader_eq]
      rfl

/-! Round trips. -/

/-- Whether every length among some events is spelled in the fewest bytes. -/
def shortestLengths : Nat → List UInt8 → Bool
  | 0, _ => true
  | _ + 1, [] => true
  | fuel + 1, id :: body =>
    match Event.fixedLen id with
    | some width => shortestLengths fuel (body.drop width)
    | none =>
      match readVarint 0 0 body with
      | .error _ => true
      | .ok (length, rest) =>
        Varint.Shortest (body.take (body.length - rest.length)) &&
          shortestLengths fuel (rest.drop length)

theorem isVariable_eq (event : Event) : event.isVariable = (Event.fixedLen event.id).isNone := by
  have hle : (192 : UInt8) ≤ event.id ↔ 192 ≤ event.id.toNat := UInt8.le_iff_toNat_le
  rw [Event.isVariable, firstVariableEvent, Bool.eq_iff_iff, decide_eq_true_iff, hle,
    Event.fixedLen]
  by_cases h : 192 ≤ event.id.toNat
  · rw [if_neg (by omega), if_neg (by omega), if_neg (by omega)]
    simpa using h
  · split
    · simpa using h
    · split
      · simpa using h
      · rw [if_pos (by omega)]
        simpa using h

/-- A body is written again as it was when its lengths are spelled shortly. -/
theorem encodeEvents_eq_iff {body : List UInt8} {events : List Event} (h : Written body events)
    {fuel : Nat} (hfuel : body.length ≤ fuel) :
    events.flatMap Event.encode = body ↔ shortestLengths fuel body = true := by
  induction h generalizing fuel with
  | nil =>
    cases fuel with
    | zero => exact ⟨fun _ => rfl, fun _ => rfl⟩
    | succ fuel => exact ⟨fun _ => rfl, fun _ => rfl⟩
  | @cons event spelling rest events hspelling hrest ih =>
    rw [List.length_cons, List.length_append, List.length_append] at hfuel
    cases fuel with
    | zero => omega
    | succ fuel =>
      have htail := ih (show rest.length ≤ fuel by omega)
      unfold Event.Prefixed at hspelling
      rw [List.flatMap_cons, Event.encode, isVariable_eq, shortestLengths]
      cases hwidth : Event.fixedLen event.id with
      | some width =>
        rw [hwidth] at hspelling
        obtain ⟨rfl, rfl⟩ := hspelling
        simp only [Option.isNone_some, Bool.false_eq_true, if_false, List.nil_append,
          List.cons_append, List.cons.injEq, true_and, List.append_cancel_left_eq, List.drop_left]
        exact htail
      | none =>
        rw [hwidth] at hspelling
        obtain ⟨hs, hlength⟩ := hspelling
        have hread : readVarint 0 0 (spelling ++ (event.payload ++ rest)) =
            .ok (event.payload.length, event.payload ++ rest) := by
          rw [readVarint_ok_iff (show 0 < 2 ^ 0 by decide)]
          exact ⟨spelling, _, rfl, hs, by omega, by omega⟩
        have hspelled : (spelling ++ (event.payload ++ rest)).take
            ((spelling ++ (event.payload ++ rest)).length - (event.payload ++ rest).length) =
              spelling := by
          rw [List.length_append, Nat.add_sub_cancel, List.take_left]
        simp only [Option.isNone_none, if_true, hread, hspelled, List.drop_left, Bool.and_eq_true,
          List.cons_append, List.cons.injEq, true_and, List.append_assoc, ← htail,
          ← hs.eq_write_iff, writeVarint_eq]
        constructor
        · intro heq
          obtain ⟨hsame, hafter⟩ := hs.append_inj (Varint.spells_write _) heq.symm
          exact ⟨hsame, (List.append_cancel_left hafter).symm⟩
        · rintro ⟨hsame, hafter⟩
          rw [← hsame, hafter]

/-- A decoded project is written again byte for byte exactly when nothing follows its data chunk
and every length in the chunk is spelled in the fewest bytes. -/
theorem encode_decode_iff {source : List UInt8} {stream : Stream}
    (h : Stream.decode source = .ok stream) :
    stream.encode = source ↔ source.length = 22 + fromLeBytes ((source.drop 18).take 4) ∧
      shortestLengths source.length (source.drop 22) = true := by
  obtain ⟨hsize, body, trailing, rfl, hwritten, -⟩ := decode_ok_iff.mp h
  have hmax : maxFlpBytes < 256 ^ 4 := by decide
  have hheader := length_headerEncode stream.header
  have hnumber := length_toLeBytes 4 body.length
  rw [List.length_append, List.length_append, List.length_append, hheader, hnumber] at hsize
  have hdeclared : fromLeBytes (((stream.header.encode ++ (toLeBytes 4 body.length ++
      (body ++ trailing))).drop 18).take 4) = body.length := by
    rw [← hheader, List.drop_left]
    have hfour : (toLeBytes 4 body.length ++ (body ++ trailing)).take 4 =
        toLeBytes 4 body.length := List.take_left' hnumber
    rw [hfour]
    exact fromLeBytes_toLeBytes (by omega)
  have hchunk : (stream.header.encode ++ (toLeBytes 4 body.length ++
      (body ++ trailing))).drop 22 = body ++ trailing := by
    rw [← List.append_assoc]
    have hlength : (stream.header.encode ++ toLeBytes 4 body.length).length = 22 := by
      rw [List.length_append, hheader, hnumber]
    rw [← hlength, List.drop_left]
  rw [hdeclared, hchunk, Stream.encode_eq, List.append_cancel_left_eq, List.length_append,
    List.length_append, List.length_append, hheader, hnumber]
  constructor
  · intro heq
    obtain ⟨hdeclare, hbody⟩ := List.append_inj heq
      ((length_toLeBytes _ _).trans (length_toLeBytes _ _).symm)
    have hencoded : stream.encodeBody.length = body.length + trailing.length := by
      rw [hbody, List.length_append]
    have hsame : stream.encodeBody.length = body.length := by
      have hback := congrArg fromLeBytes hdeclare
      rwa [fromLeBytes_toLeBytes (by omega), fromLeBytes_toLeBytes (by omega)] at hback
    obtain rfl := List.length_eq_zero_iff.mp (show trailing.length = 0 by omega)
    rw [List.append_nil] at hbody
    rw [List.append_nil]
    exact ⟨by simp; omega, (encodeEvents_eq_iff hwritten (by omega)).mp hbody⟩
  · intro ⟨hlength, hshort⟩
    obtain rfl := List.length_eq_zero_iff.mp (show trailing.length = 0 by omega)
    rw [List.append_nil] at hshort
    have hbody : stream.encodeBody = body := (encodeEvents_eq_iff hwritten (by omega)).mpr hshort
    rw [hbody, List.append_nil]

/-- A project of one empty text, whose length takes two bytes. -/
def longLength : List UInt8 :=
  headerMagic ++ [6, 0, 0, 0, 0, 0, 2, 0, 96, 0] ++ dataMagic ++ [3, 0, 0, 0, 200, 0x80, 0]

theorem longLength_shortened : ∃ stream, Stream.decode longLength = .ok stream ∧
    stream.encode ≠ longLength := by
  refine ⟨⟨⟨0, 2, 96⟩, [⟨200, []⟩]⟩, by rfl, fun h => ?_⟩
  have hlength := congrArg List.length h
  simp [Stream.encode, Stream.encodeBody, Event.encode, writeVarint, length_toLeBytes, headerMagic,
    dataMagic, longLength, Event.isVariable, firstVariableEvent] at hlength

/-- The same project with the length in one byte. -/
def shortLength : List UInt8 :=
  headerMagic ++ [6, 0, 0, 0, 0, 0, 2, 0, 96, 0] ++ dataMagic ++ [2, 0, 0, 0, 200, 0]

theorem shortLength_kept :
    Stream.encode ⟨⟨0, 2, 96⟩, [⟨200, []⟩]⟩ = shortLength := by
  have hdecode : Stream.decode shortLength = .ok ⟨⟨0, 2, 96⟩, [⟨200, []⟩]⟩ := by rfl
  exact (encode_decode_iff hdecode).mpr ⟨by decide, by decide⟩

/-- Every payload has the width that its id asks for. -/
def Stream.WellSized (stream : Stream) : Prop :=
  ∀ event ∈ stream.events, ∀ width, Event.fixedLen event.id = some width →
    event.payload.length = width

theorem written_encode {events : List Event}
    (hwidths : ∀ event ∈ events, ∀ width, Event.fixedLen event.id = some width →
      event.payload.length = width)
    (hsize : (events.flatMap Event.encode).length ≤ maxFlpBytes) :
    Written (events.flatMap Event.encode) events := by
  induction events with
  | nil => exact .nil
  | cons event events ih =>
    rw [List.flatMap_cons, List.length_append] at hsize
    rw [List.forall_mem_cons] at hwidths
    have hrest := ih hwidths.2 (by omega)
    rw [List.flatMap_cons, Event.encode, List.cons_append, List.cons_append, List.append_assoc]
    refine .cons ?_ hrest
    unfold Event.Prefixed
    rw [isVariable_eq]
    cases hwidth : Event.fixedLen event.id with
    | some width => exact ⟨rfl, hwidths.1 width hwidth⟩
    | none =>
      have hpayload : event.payload.length < 2 ^ (7 * (4 + 1)) := by
        have hmax : maxFlpBytes < 2 ^ (7 * (4 + 1)) := by decide
        rw [Event.encode, List.length_append] at hsize
        omega
      simp only [Option.isNone_none, if_true, writeVarint_eq]
      exact ⟨Varint.spells_write _, Varint.length_write_le hpayload⟩

/-- What is encoded within the limits is decoded. -/
theorem decode_encode {stream : Stream} (hwidths : stream.WellSized)
    (hcount : stream.events.length ≤ maxEvents) (hsize : stream.encode.length ≤ maxFlpBytes) :
    Stream.decode stream.encode = .ok stream := by
  refine decode_ok_iff.mpr ⟨hsize, stream.encodeBody, [], ?_, ?_, hcount⟩
  · rw [List.append_nil]
    exact stream.encode_eq
  · rw [Stream.encode_eq, List.length_append, List.length_append] at hsize
    exact written_encode hwidths (show stream.encodeBody.length ≤ maxFlpBytes by omega)

/-- One event of each width. -/
def bandStream : Stream :=
  ⟨⟨0, 2, 96⟩, [⟨63, [255]⟩, ⟨127, [255, 255]⟩, ⟨191, [255, 255, 255, 255]⟩, ⟨255, []⟩]⟩

theorem decode_encode_bands : Stream.decode bandStream.encode = .ok bandStream := by
  refine decode_encode ?_ (by decide) ?_
  · intro event hevent width hwidth
    revert width
    revert event
    decide
  · rw [Stream.encode_eq]
    simp [length_headerEncode, length_toLeBytes, Stream.encodeBody, bandStream, Event.encode,
      writeVarint, Event.isVariable, firstVariableEvent, maxFlpBytes]

end FlStudio

end AuruPm
