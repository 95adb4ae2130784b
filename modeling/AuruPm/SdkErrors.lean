import AuruPm.SdkCommit
import AuruPm.SdkReader

/-!
# Failed responses in the client libraries

The error that `client.cpp`, `AuruClient.java` and `Client.swift` make of a response that is no
success. A standard library call that throws on the way leaves the caller with its own exception.
-/

namespace AuruPm

set_option autoImplicit false

open JsonValue CodeUnits

namespace Sdk

variable {T D A B C : Type}

/-! Codes and responses. -/

inductive ErrorCode
  | badRequest
  | unauthorized
  | forbidden
  | notFound
  | headConflict
  | unsupported
  | rateLimited
  | storageError
  | internal
  | authenticationUnavailable
  deriving DecidableEq

namespace ErrorCode

def wireValue : ErrorCode → String
  | badRequest => "bad_request"
  | unauthorized => "unauthorized"
  | forbidden => "forbidden"
  | notFound => "not_found"
  | headConflict => "head_conflict"
  | unsupported => "unsupported"
  | rateLimited => "rate_limited"
  | storageError => "storage_error"
  | internal => "internal"
  | authenticationUnavailable => "authentication_unavailable"

def values : List ErrorCode :=
  [badRequest, unauthorized, forbidden, notFound, headConflict, unsupported, rateLimited,
    storageError, internal, authenticationUnavailable]

def fromWire [DecidableEq T] (S : Strings T) (value : T) : Option ErrorCode :=
  values.find? fun code => S.literal code.wireValue = value

/-- The fallback where a body names no code of the table. -/
def forStatus (status : Int) : ErrorCode :=
  match status with
  | 400 => badRequest
  | 401 => unauthorized
  | 403 => forbidden
  | 404 => notFound
  | 409 => headConflict
  | 422 => unsupported
  | 429 => rateLimited
  | 503 => authenticationUnavailable
  | _ => if status ≥ 500 then internal else badRequest

end ErrorCode

/-- A response, with a body of bytes that need not be a text. -/
structure Response (T : Type) where
  status : Int
  headers : List (T × T)
  body : List Nat

def Response.mapHeaders {T' : Type} (text : T → T') (response : Response T) : Response T' :=
  ⟨response.status, response.headers.map (Prod.map text text), response.body⟩

/-- The first header of the name, in either case. -/
def Response.header [DecidableEq T] (lower : T → T) (response : Response T) (name : T) : Option T :=
  (response.headers.find? fun entry => lower entry.1 = lower name).map Prod.snd

/-- The error of a library, with a wait of type `A` and a head of type `B`. -/
structure AuruError (T A B : Type) where
  code : ErrorCode
  message : T
  status : Option Int
  retryAfter : Option A
  currentHead : Option B

/-- What a standard library call throws. -/
inductive Thrown
  | outOfRange
  | illegalArgument
  | numberFormat
  deriving DecidableEq

def orThrow {α : Type} (thrown : Thrown) (result : Option α) : Except Thrown α :=
  result.elim (.error thrown) .ok

/-- A body that is no JSON is taken for an empty object. -/
def bodyOr (parsed : Option (JsonValue T D)) : JsonValue T D := parsed.getD (.obj [])

section Members
variable [DecidableEq T] (S : Strings T)

def textAt (v : JsonValue T D) (name : String) : Option T := (find S v name).bind asText

def headMoved : String := "HEAD moved since it was last read"

def statusMessage (status : Int) : T :=
  S.ofText ("HTTP ".toList ++ (toString status).toList ++ " from the provider".toList)

/-- The code that a body names, or else the one of the status. -/
def codeOf (rawCode : Option T) (status : Int) : ErrorCode :=
  (rawCode.bind (ErrorCode.fromWire S)).getD (.forStatus status)

end Members

/-! Waits. -/

def IsDigits (value : List Nat) : Prop := value ≠ [] ∧ value.all isDigit

instance (value : List Nat) : Decidable (IsDigits value) := inferInstanceAs (Decidable (_ ∧ _))

def digitsValue (digits : List Nat) : Nat :=
  digits.foldl (fun n u => 10 * n + (u - '0'.toNat)) 0

/-- The number of a header that is digits alone, where it is no more than `limit`. -/
def boundedDigits (limit : Nat) (thrown : Thrown) (header : Option (List Nat)) :
    Except Thrown (Option Nat) :=
  match header with
  | none => .ok none
  | some value =>
    if IsDigits value then
      if digitsValue value ≤ limit then .ok (some (digitsValue value)) else .error thrown
    else .ok none

/-! The three mappings. -/

namespace Cpp

/-- `std::tolower` on a byte. -/
def tolower (u : Nat) : Nat := if 'A'.toNat ≤ u ∧ u ≤ 'Z'.toNat then u + 32 else u

/-- With `std::stoi`. -/
def retryAfterSeconds : Option (List Nat) → Except Thrown (Option Nat) :=
  boundedDigits 2147483647 .outOfRange

def retryHeader (response : Response (List Nat)) : Option (List Nat) :=
  response.header (List.map tolower) (strings.literal "retry-after")

def bodyOf (strtod : List Nat → D) (response : Response (List Nat)) : JsonValue (List Nat) D :=
  bodyOr (parse strtod response.body)

def errorFrom (strtod : List Nat → D) (response : Response (List Nat)) :
    Except Thrown (AuruError (List Nat) Nat (List Nat)) :=
  let body := bodyOf strtod response
  let rawCode := textAt strings body "code"
  if rawCode = some (strings.literal "head_conflict") then
    .ok ⟨.headConflict, strings.literal headMoved, some response.status, none,
      textAt strings body "current"⟩
  else do
    let message := (textAt strings body "message").getD (statusMessage strings response.status)
    let retryAfter ← retryAfterSeconds (retryHeader response)
    return ⟨codeOf strings rawCode response.status, message, some response.status, retryAfter, none⟩

end Cpp

namespace Java

/-- A member that is neither missing nor null nor a string throws. -/
def optText (v : JsonValue (List Nat) D) (name : String) : Except Thrown (Option (List Nat)) :=
  orThrow .illegalArgument (optString strings v name)

def currentHash : Option (List Nat) → Except Thrown (Option ContentHash)
  | none => .ok none
  | some text => orThrow .illegalArgument ((ContentHash.parse text).map some)

/-- With `Long.parseLong`, in seconds. -/
def retryAfter : Option (List Nat) → Except Thrown (Option Nat) :=
  boundedDigits 9223372036854775807 .numberFormat

def headConflict (current : Option ContentHash) : AuruError (List Nat) Nat ContentHash :=
  let now := current.elim [] fun head => "; the provider is now at ".toList ++ head.toText
  ⟨.headConflict, strings.ofText (headMoved.toList ++ now), some 409, none, current⟩

section
variable (digit : Nat → Option Nat) (parseDouble : List Nat → D) (decode : List Nat → List Nat)
  (toLowerCase : List Nat → List Nat)

def retryHeader (response : Response (List Nat)) : Option (List Nat) :=
  response.header toLowerCase (strings.literal "retry-after")

/-- The body as it is read, with the replacements of a text that is not UTF-8. -/
def bodyOf (response : Response (List Nat)) : JsonValue (List Nat) D :=
  bodyOr (parse digit parseDouble (decode response.body))

def failure (response : Response (List Nat)) :
    Except Thrown (AuruError (List Nat) Nat ContentHash) := do
  let body := bodyOf digit parseDouble decode response
  let rawCode ← optText body "code"
  if rawCode = some (strings.literal "head_conflict") then
    let text ← optText body "current"
    let current ← currentHash text
    return headConflict current
  else
    let text ← optText body "message"
    let message := text.getD (statusMessage strings response.status)
    let retryAfter ← retryAfter (retryHeader toLowerCase response)
    return ⟨codeOf strings rawCode response.status, message, some response.status, retryAfter, none⟩

end

end Java

namespace Swift

section
variable (double : List Nat → D) (lowercased : List Char → List Char)
  (timeInterval : List Char → Option A)

def bodyOf (response : Response (List Char)) : JsonValue (List Char) D :=
  bodyOr (parseData double response.body)

/-- Every reader gives nothing where there is nothing to read. -/
def failure (response : Response (List Char)) : Except Thrown (AuruError (List Char) A ContentHash) :=
  let body := bodyOf double response
  let rawCode := textAt strings body "code"
  if rawCode = some (strings.literal "head_conflict") then
    let current := (textAt strings body "current").bind fun text => ContentHash.parse (scalars text)
    .ok ⟨.headConflict, strings.literal headMoved, some response.status, none, current⟩
  else
    let message := (textAt strings body "message").getD (statusMessage strings response.status)
    let retryAfter := (response.header lowercased (strings.literal "retry-after")).bind timeInterval
    .ok ⟨codeOf strings rawCode response.status, message, some response.status, retryAfter, none⟩

end

end Swift

/-! What the mapping comes to. -/

/-- The code of the table that a body and a status stand for. -/
def namedCode [DecidableEq T] (S : Strings T) (v : JsonValue T D) (status : Int) : ErrorCode :=
  codeOf S (textAt S v "code") status

/-- The mapping ends in an error of the library with this code of the table. -/
def Mapped (code : ErrorCode) (result : Except Thrown (AuruError T A B)) : Prop :=
  ∃ error, result = .ok error ∧ error.code = code

/-- A member that is missing, null or a string. -/
def TextOrMissing [DecidableEq T] (S : Strings T) (v : JsonValue T D) (name : String) : Prop :=
  ∀ w, find S v name = some w → ∃ text, w = .str text

/-- A header that is digits alone is a number up to the limit. -/
def WaitFits (limit : Nat) (header : Option (List Nat)) : Prop :=
  ∀ value, header = some value → IsDigits value → digitsValue value ≤ limit

theorem orThrow_ok_iff {α : Type} {thrown : Thrown} {result : Option α} {a : α} :
    orThrow thrown result = .ok a ↔ result = some a := by
  cases result <;> simp [orThrow]

theorem boundedDigits_ok_iff {limit : Nat} {thrown : Thrown} {header : Option (List Nat)} :
    (∃ wait, boundedDigits limit thrown header = .ok wait) ↔ WaitFits limit header := by
  cases header with
  | none =>
    refine iff_of_true ⟨none, rfl⟩ ?_
    intro value hvalue
    cases hvalue
  | some value =>
    rw [boundedDigits]
    constructor
    · intro ⟨wait, h⟩ value' hvalue hdigits
      cases hvalue
      rw [if_pos hdigits] at h
      by_contra hlarge
      rw [if_neg hlarge] at h
      cases h
    · intro h
      by_cases hdigits : IsDigits value
      · rw [if_pos hdigits, if_pos (h value rfl hdigits)]
        exact ⟨_, rfl⟩
      · rw [if_neg hdigits]
        exact ⟨none, rfl⟩

/-- A string or nothing is read, and anything else throws. -/
theorem optText_ok_iff {v : JsonValue (List Nat) D} {name : String} {text : Option (List Nat)} :
    Java.optText v name = .ok text ↔
      TextOrMissing Java.strings v name ∧ textAt Java.strings v name = text := by
  rw [Java.optText, orThrow_ok_iff, optString, textAt, TextOrMissing]
  cases hfind : find Java.strings v name with
  | none => simp
  | some w => cases w <;> simp [asText]

/-- The code `head_conflict` is one of the table. -/
theorem codeOf_headConflict {S : Strings T} [DecidableEq T] (hS : S.ofText.Injective) (status : Int) :
    codeOf S (some (S.literal "head_conflict")) status = .headConflict := by
  have hfind : ErrorCode.fromWire S (S.literal "head_conflict") = some .headConflict := by
    have hlit : ∀ s : String, S.literal s = S.literal "head_conflict" ↔ s = "head_conflict" := by
      intro s
      exact ⟨fun h => String.toList_inj.mp (hS h), fun h => h ▸ rfl⟩
    simp only [ErrorCode.fromWire, hlit]
    decide
  rw [codeOf, Option.bind_some, hfind, Option.getD_some]

theorem mapped_bind {code : ErrorCode} {α : Type} {x : Except Thrown α}
    {f : α → Except Thrown (AuruError T A B)} :
    Mapped code (x >>= f) ↔ ∃ a, x = .ok a ∧ Mapped code (f a) := by
  constructor
  · intro ⟨error, h, hcode⟩
    obtain ⟨a, ha, herror⟩ := bind_ok_iff.mp h
    exact ⟨a, ha, error, herror, hcode⟩
  · intro ⟨a, ha, error, herror, hcode⟩
    exact ⟨error, bind_ok_iff.mpr ⟨a, ha, herror⟩, hcode⟩

theorem mapped_ok {error : AuruError T A B} {code : ErrorCode} (h : error.code = code) :
    Mapped code (.ok error) :=
  ⟨error, rfl, h⟩

/-- The last call before the error decides. -/
theorem mapped_bind_pure {code : ErrorCode} {α : Type} {x : Except Thrown α}
    {error : α → AuruError T A B} (hcode : ∀ a, (error a).code = code) :
    Mapped code (x >>= fun a => pure (error a)) ↔ ∃ a, x = .ok a := by
  rw [mapped_bind]
  constructor
  · intro ⟨a, ha, _⟩
    exact ⟨a, ha⟩
  · intro ⟨a, ha⟩
    exact ⟨a, ha, mapped_ok (hcode a)⟩

theorem mapped_optText {code : ErrorCode} {v : JsonValue (List Nat) D} {name : String}
    {f : Option (List Nat) → Except Thrown (AuruError T A B)} :
    Mapped code (Java.optText v name >>= f) ↔
      TextOrMissing Java.strings v name ∧ Mapped code (f (textAt Java.strings v name)) := by
  rw [mapped_bind]
  constructor
  · intro ⟨text, htext, h⟩
    obtain ⟨hread, rfl⟩ := optText_ok_iff.mp htext
    exact ⟨hread, h⟩
  · intro ⟨hread, h⟩
    exact ⟨_, optText_ok_iff.mpr ⟨hread, rfl⟩, h⟩

/-! Which responses are mapped. -/

/-- The wait of the header is in the range of an `int`, but for a lost race. -/
def Cpp.Mappable (strtod : List Nat → D) (response : Response (List Nat)) : Prop :=
  textAt Cpp.strings (Cpp.bodyOf strtod response) "code" ≠
      some (Cpp.strings.literal "head_conflict") →
    WaitFits 2147483647 (Cpp.retryHeader response)

/-- The members that are read are strings, the head of a lost race is a hash and the wait is in the
range of a `long`. -/
structure Java.Mappable (v : JsonValue (List Nat) D) (header : Option (List Nat)) : Prop where
  code : TextOrMissing Java.strings v "code"
  current : textAt Java.strings v "code" = some (Java.strings.literal "head_conflict") →
    TextOrMissing Java.strings v "current" ∧
      ∀ text, textAt Java.strings v "current" = some text → (ContentHash.parse text).isSome
  message : textAt Java.strings v "code" ≠ some (Java.strings.literal "head_conflict") →
    TextOrMissing Java.strings v "message" ∧ WaitFits 9223372036854775807 header

theorem currentHash_ok_iff {text : Option (List Nat)} :
    (∃ current, Java.currentHash text = .ok current) ↔
      ∀ t, text = some t → (ContentHash.parse t).isSome := by
  cases text with
  | none =>
    refine iff_of_true ⟨none, rfl⟩ ?_
    intro t ht
    cases ht
  | some t =>
    simp only [Java.currentHash, orThrow_ok_iff, Option.map_eq_some_iff, Option.some.injEq,
      forall_eq', Option.isSome_iff_exists]
    constructor
    · intro ⟨_, hash, hhash, _⟩
      exact ⟨hash, hhash⟩
    · intro ⟨hash, hhash⟩
      exact ⟨some hash, hash, hhash, rfl⟩

theorem Cpp.strings_injective : Cpp.strings.ofText.Injective := utf8_injective

theorem Java.strings_injective : Java.strings.ofText.Injective := utf16_injective

theorem Swift.strings_injective : Swift.strings.ofText.Injective := Function.injective_id

theorem Cpp.errorFrom_mapped_iff (strtod : List Nat → D) (response : Response (List Nat)) :
    Mapped (namedCode Cpp.strings (Cpp.bodyOf strtod response) response.status)
      (Cpp.errorFrom strtod response) ↔ Cpp.Mappable strtod response := by
  rw [Cpp.errorFrom, Cpp.Mappable, namedCode]
  by_cases hconflict : textAt Cpp.strings (Cpp.bodyOf strtod response) "code" =
      some (Cpp.strings.literal "head_conflict")
  · refine iff_of_true ?_ fun hne => absurd hconflict hne
    simp only [if_pos hconflict]
    exact ⟨_, rfl, (hconflict ▸ codeOf_headConflict Cpp.strings_injective _).symm⟩
  · simp only [if_neg hconflict]
    rw [mapped_bind_pure, Cpp.retryAfterSeconds, boundedDigits_ok_iff]
    · exact ⟨fun h _ => h, fun h => h hconflict⟩
    · intro wait
      rfl

theorem Java.failure_mapped_iff (digit : Nat → Option Nat) (parseDouble : List Nat → D)
    (decode toLowerCase : List Nat → List Nat) (response : Response (List Nat)) :
    Mapped (namedCode Java.strings (Java.bodyOf digit parseDouble decode response) response.status)
        (Java.failure digit parseDouble decode toLowerCase response) ↔
      Java.Mappable (Java.bodyOf digit parseDouble decode response)
        (Java.retryHeader toLowerCase response) := by
  rw [Java.failure, namedCode]
  generalize Java.bodyOf digit parseDouble decode response = v
  rw [mapped_optText]
  by_cases hconflict : textAt Java.strings v "code" = some (Java.strings.literal "head_conflict")
  · have hcode : ErrorCode.headConflict =
        codeOf Java.strings (textAt Java.strings v "code") response.status :=
      (hconflict ▸ codeOf_headConflict Java.strings_injective _).symm
    rw [if_pos hconflict, mapped_optText, mapped_bind_pure fun _ => hcode, currentHash_ok_iff]
    constructor
    · intro ⟨hread, hcurrent, hhash⟩
      exact ⟨hread, fun _ => ⟨hcurrent, hhash⟩, fun hne => absurd hconflict hne⟩
    · intro h
      exact ⟨h.code, h.current hconflict⟩
  · rw [if_neg hconflict, mapped_optText]
    dsimp only
    rw [mapped_bind_pure, Java.retryAfter, boundedDigits_ok_iff]
    · constructor
      · intro ⟨hread, hmessage, hwait⟩
        exact ⟨hread, fun heq => absurd heq hconflict, fun _ => ⟨hmessage, hwait⟩⟩
      · intro h
        exact ⟨h.code, h.message hconflict⟩
    · intro wait
      rfl

theorem Swift.failure_mapped (double : List Nat → D) (lowercased : List Char → List Char)
    (timeInterval : List Char → Option A) (response : Response (List Char)) :
    Mapped (namedCode Swift.strings (Swift.bodyOf double response) response.status)
      (Swift.failure double lowercased timeInterval response) := by
  rw [Swift.failure, namedCode]
  by_cases hconflict : textAt Swift.strings (Swift.bodyOf double response) "code" =
      some (Swift.strings.literal "head_conflict")
  · simp only [if_pos hconflict]
    exact mapped_ok (hconflict ▸ codeOf_headConflict Swift.strings_injective _).symm
  · simp only [if_neg hconflict]
    exact mapped_ok rfl

/-- The calls of the standard libraries, and how two transports read the bytes of a header. -/
structure Calls (A B C R : Type) where
  strtod : List Nat → A
  digit : Nat → Option Nat
  parseDouble : List Nat → B
  decode : List Nat → List Nat
  toLowerCase : List Nat → List Nat
  javaText : List Nat → List Nat
  double : List Nat → C
  lowercased : List Char → List Char
  timeInterval : List Char → Option R
  swiftText : List Nat → List Char

section Failures
variable {R : Type} (L : Calls A B C R) (response : Response (List Nat))

def Java.seen : JsonValue (List Nat) B :=
  Java.bodyOf L.digit L.parseDouble L.decode (response.mapHeaders L.javaText)

/-- Each library makes its own error of the response, with the code that the body and the status
stand for. -/
structure FailuresMapped : Prop where
  cpp : Mapped (namedCode Cpp.strings (Cpp.bodyOf L.strtod response) response.status)
    (Cpp.errorFrom L.strtod response)
  java : Mapped (namedCode Java.strings (Java.seen L response) response.status)
    (Java.failure L.digit L.parseDouble L.decode L.toLowerCase (response.mapHeaders L.javaText))
  swift : Mapped (namedCode Swift.strings (Swift.bodyOf L.double (response.mapHeaders L.swiftText))
      response.status)
    (Swift.failure L.double L.lowercased L.timeInterval (response.mapHeaders L.swiftText))

theorem failuresMapped_iff :
    FailuresMapped L response ↔
      Cpp.Mappable L.strtod response ∧
        Java.Mappable (Java.seen L response)
          (Java.retryHeader L.toLowerCase (response.mapHeaders L.javaText)) := by
  have hcpp := Cpp.errorFrom_mapped_iff L.strtod response
  have hjava := Java.failure_mapped_iff L.digit L.parseDouble L.decode L.toLowerCase
    (response.mapHeaders L.javaText)
  constructor
  · intro h
    exact ⟨hcpp.mp h.cpp, hjava.mp h.java⟩
  · intro ⟨hc, hj⟩
    exact ⟨hcpp.mpr hc, hjava.mpr hj, Swift.failure_mapped L.double L.lowercased L.timeInterval _⟩

end Failures

def plainCalls : Calls Unit Unit Unit Unit :=
  ⟨fun _ => (), hexValue, fun _ => (), id, id, id, fun _ => (), id, fun _ => none, decodeUtf8⟩

/-- A wait of 68 years throws in C++. -/
def longWait : Response (List Nat) :=
  ⟨503, [(ascii "Retry-After", ascii "2147483648")], []⟩

theorem longWait_not_mapped : ¬ FailuresMapped plainCalls longWait := by
  intro h
  have hmappable := (Cpp.errorFrom_mapped_iff (fun _ => ()) longWait).mp h.cpp
  have hcode : textAt Cpp.strings (Cpp.bodyOf (fun _ => ()) longWait) "code" ≠
      some (Cpp.strings.literal "head_conflict") := by
    decide +kernel
  have hheader : Cpp.retryHeader longWait = some (ascii "2147483648") := by
    decide +kernel
  have hdigits : IsDigits (ascii "2147483648") := by
    decide +kernel
  exact absurd (hmappable hcode _ hheader hdigits) (by decide +kernel)

end Sdk

end AuruPm
