import AuruPm.Lib.JsonParser
import AuruPm.Lib.CodeUnits

/-!
# The parsers of the client libraries

`json.cpp`, `Json.java` and `JSONParser.swift` parse with one recursive descent over the units of a
text: bytes in C++ and Swift, UTF-16 units in Java. They differ in how they read the four units of
a `\u` escape, in which literals they take for a fractional number and in how they keep members.
-/

namespace AuruPm

set_option autoImplicit false

open JsonValue CodeUnits

namespace Sdk

/-! Strings. -/

/-- The unit that a backslash and `e` stand for. -/
def simpleEscape (e : Nat) : Option Nat :=
  if e = '"'.toNat then some '"'.toNat
  else if e = '\\'.toNat then some '\\'.toNat
  else if e = '/'.toNat then some '/'.toNat
  else if e = 'b'.toNat then some 0x08
  else if e = 'f'.toNat then some 0x0C
  else if e = 'n'.toNat then some 0x0A
  else if e = 'r'.toNat then some 0x0D
  else if e = 't'.toNat then some 0x09
  else none

def prepend (units : List Nat) (read : List Nat × List Nat) : List Nat × List Nat :=
  (units ++ read.1, read.2)

/-- The units of a string up to its closing quote. `unicode` reads what follows `\u`, and the first
argument bounds the length. -/
def readUnits (unicode : List Nat → Option (List Nat × List Nat)) :
    Nat → List Nat → Option (List Nat × List Nat)
  | 0, _ => none
  | _ + 1, [] => none
  | fuel + 1, u :: rest =>
    if u = '"'.toNat then some ([], rest)
    else if u ≠ '\\'.toNat then
      if u < 0x20 then none else (readUnits unicode fuel rest).map (prepend [u])
    else
      match rest with
      | [] => none
      | e :: rest =>
        if e = 'u'.toNat then
          (unicode rest).bind fun (units, rest) =>
            (readUnits unicode fuel rest).map (prepend units)
        else
          (simpleEscape e).bind fun unit => (readUnits unicode fuel rest).map (prepend [unit])

def readString (unicode : List Nat → Option (List Nat × List Nat)) (s : List Nat) :
    Option (List Nat × List Nat) :=
  readUnits unicode (s.length + 1) s

/-- The four units of another `\u` escape that follows. -/
def pairAhead (s : List Nat) : Option (List Nat) :=
  if 6 ≤ s.length ∧ s.take 2 = ascii "\\u" then some ((s.drop 2).take 4) else none

def isLead (unit : Nat) : Bool := 0xD800 ≤ unit && unit ≤ 0xDBFF

def isTrail (unit : Nat) : Bool := 0xDC00 ≤ unit && unit ≤ 0xDFFF

def hexValue (u : Nat) : Option Nat :=
  if '0'.toNat ≤ u ∧ u ≤ '9'.toNat then some (u - '0'.toNat)
  else if 'a'.toNat ≤ u ∧ u ≤ 'f'.toNat then some (u - 'a'.toNat + 10)
  else if 'A'.toNat ≤ u ∧ u ≤ 'F'.toNat then some (u - 'A'.toNat + 10)
  else none

/-- The value of digits in base 16. -/
def hexSum (digits : List Nat) : Nat := digits.foldl (fun n d => n * 16 + d) 0

/-- The bytes of an escape. A lead surrogate and a trail surrogate that follows are one code point.
`value` reads four units, and `bytes` writes a code point. -/
def readPaired (value : List Nat → Option Nat) (bytes : Nat → List Nat) (s : List Nat) :
    Option (List Nat × List Nat) :=
  if s.length < 4 then none
  else
    (value (s.take 4)).bind fun codePoint =>
      let rest := s.drop 4
      match if isLead codePoint then pairAhead rest else none with
      | none => some (bytes codePoint, rest)
      | some units =>
        (value units).bind fun trail =>
          if isTrail trail then
            some (bytes (0x10000 + (codePoint - 0xD800) <<< 10 + (trail - 0xDC00)), rest.drop 6)
          else some (bytes codePoint, rest)

/-! Numbers. -/

/-- Whether a literal has more than a sign and digits. -/
def fractional (literal : List Nat) : Bool :=
  match literal with
  | u :: rest => if u = '-'.toNat then rest.any (!isDigit ·) else (u :: rest).any (!isDigit ·)
  | [] => false

/-- The integer of a sign and digits, where 64 bits hold it. -/
def parseInt64 (literal : List Nat) : Option Int64 :=
  let value (digits : List Nat) : Int := (digits.foldl (fun n u => 10 * n + (u - '0'.toNat)) 0 : Nat)
  let n : Int := match literal with
    | u :: rest => if u = '-'.toNat then -value rest else value (u :: rest)
    | [] => 0
  if -2 ^ 63 ≤ n ∧ n < 2 ^ 63 then some (Int64.ofInt n) else none

def dropSign : List Nat → List Nat
  | u :: rest => if u = '-'.toNat ∨ u = '+'.toNat then rest else u :: rest
  | [] => []

/-- An exponent with digits, or nothing. -/
def isExponent : List Nat → Bool
  | [] => true
  | u :: rest =>
    (u = 'e'.toNat || u = 'E'.toNat) && dropSign rest ≠ [] && (dropSign rest).all isDigit

/-- Whether a decimal conversion takes the whole literal, with digits on one side of a point at
least. -/
def isDecimal (literal : List Nat) : Bool :=
  let s := dropSign literal
  let whole := s.takeWhile isDigit
  let s := s.dropWhile isDigit
  let (fraction, s) := match s with
    | u :: rest =>
      if u = '.'.toNat then (rest.takeWhile isDigit, rest.dropWhile isDigit) else ([], u :: rest)
    | [] => ([], [])
  (whole ≠ [] || fraction ≠ []) && isExponent s

/-- A literal as an integer where it is one, and else as `double` makes it. -/
def parseNumber {T D : Type} (double : List Nat → Option D) (literal : List Nat) :
    Option (JsonValue T D) :=
  if literal = [] ∨ literal = ['-'.toNat] then none
  else
    match if fractional literal then none else parseInt64 literal with
    | some n => some (.int n)
    | none => (double literal).map .dec

/-! C++. -/

namespace Cpp

def isSpace (u : Nat) : Bool := u = 0x20 || 0x09 ≤ u && u ≤ 0x0D

/-- `strtoul` in base 16. What is no digit ends the number, and no digit at all is zero. -/
def strtoul (s : List Nat) : Nat :=
  let s := s.dropWhile isSpace
  let negative := s.head? = some '-'.toNat
  let s := dropSign s
  let isPrefix := (s.take 2 = ascii "0x" || s.take 2 = ascii "0X") &&
    ((s.drop 2).head?.bind hexValue).isSome
  let s := if isPrefix then s.drop 2 else s
  let n := hexSum ((s.takeWhile fun u => (hexValue u).isSome).filterMap hexValue)
  if negative then (2 ^ 64 - n) % 2 ^ 64 else n

/-- The bytes of a code point, each cut to eight bits. -/
def appendUtf8 (codePoint : Nat) : List Nat :=
  let bytes :=
    if codePoint < 0x80 then [codePoint]
    else if codePoint < 0x800 then [0xC0 ||| codePoint >>> 6, 0x80 ||| codePoint &&& 0x3F]
    else if codePoint < 0x10000 then
      [0xE0 ||| codePoint >>> 12, 0x80 ||| codePoint >>> 6 &&& 0x3F, 0x80 ||| codePoint &&& 0x3F]
    else
      [0xF0 ||| codePoint >>> 18, 0x80 ||| codePoint >>> 12 &&& 0x3F,
        0x80 ||| codePoint >>> 6 &&& 0x3F, 0x80 ||| codePoint &&& 0x3F]
  bytes.map (· % 256)

def readUnicode : List Nat → Option (List Nat × List Nat) :=
  readPaired (fun units => some (strtoul units % 2 ^ 32)) appendUtf8

/-- `strtod` is a parameter. It never refuses a literal. -/
def reader {D : Type} (strtod : List Nat → D) : Reader (List Nat) D where
  number := parseNumber fun literal => some (strtod literal)
  text := readString readUnicode
  collect members := members

def parse {D : Type} (strtod : List Nat → D) (text : List Nat) : Option (JsonValue (List Nat) D) :=
  JsonValue.parse (reader strtod) text

end Cpp

/-! Java. -/

namespace Java

/-- `Integer.parseInt` in base 16. `digit` is `Character.digit` in that base. -/
def parseInt (digit : Nat → Option Nat) (s : List Nat) : Option Int :=
  let digits (s : List Nat) : Option Nat :=
    if s = [] then none
    else if s.all fun u => (digit u).isSome then some (hexSum (s.filterMap digit))
    else none
  match s with
  | [] => none
  | u :: rest =>
    if u = '-'.toNat then (digits rest).map fun n => -(n : Int)
    else if u = '+'.toNat then (digits rest).map fun n => (n : Int)
    else (digits (u :: rest)).map fun n => (n : Int)

/-- The cast to a unit keeps sixteen bits. -/
def readUnicode (digit : Nat → Option Nat) (s : List Nat) : Option (List Nat × List Nat) :=
  if s.length < 4 then none
  else (parseInt digit (s.take 4)).map fun n => ([(n % 2 ^ 16).toNat], s.drop 4)

/-- A linked map keeps the place of a name that is put again. -/
def put {A : Type} (name : List Nat) (v : A) : List (List Nat × A) → List (List Nat × A)
  | [] => [(name, v)]
  | (name', v') :: ms => if name' = name then (name, v) :: ms else (name', v') :: put name v ms

def linkedMap {A : Type} (members : List (List Nat × A)) : List (List Nat × A) :=
  members.foldl (fun ms m => put m.1 m.2 ms) []

def reader {D : Type} (digit : Nat → Option Nat) (parseDouble : List Nat → D) :
    Reader (List Nat) D where
  number := parseNumber fun literal => if isDecimal literal then some (parseDouble literal) else none
  text := readString (readUnicode digit)
  collect := linkedMap

def parse {D : Type} (digit : Nat → Option Nat) (parseDouble : List Nat → D) (text : List Nat) :
    Option (JsonValue (List Nat) D) :=
  JsonValue.parse (reader digit parseDouble) text

end Java

/-! Swift. -/

namespace Swift

def parseHex4 (units : List Nat) : Option Nat :=
  if units.all fun u => (hexValue u).isSome then some (hexSum (units.filterMap hexValue)) else none

/-- The bytes of a scalar, or of the replacement character where the number is none. -/
def scalarBytes (scalar : Nat) : List Nat :=
  if scalar.isValidChar then utf8Units scalar else utf8Units 0xFFFD

def readUnicode : List Nat → Option (List Nat × List Nat) := readPaired parseHex4 scalarBytes

def reader {D : Type} (double : List Nat → D) : Reader (List Char) D where
  number := parseNumber fun literal => if isDecimal literal then some (double literal) else none
  text s := (readString readUnicode s).map fun (bytes, rest) => (decodeUtf8 bytes, rest)
  collect members := members

/-- Parses the bytes of a text, which is given by its scalars. -/
def parse {D : Type} (double : List Nat → D) (text : List Nat) : Option (JsonValue (List Char) D) :=
  JsonValue.parse (reader double) (text.flatMap utf8Units)

/-- Parses bytes that need not be well formed. -/
def parseData {D : Type} (double : List Nat → D) (data : List Nat) :
    Option (JsonValue (List Char) D) :=
  parse double (scalars (decodeUtf8 data))

end Swift

end Sdk

end AuruPm
