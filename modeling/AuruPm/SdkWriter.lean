import AuruPm.Lib.JsonWriter
import AuruPm.Lib.SortedAssoc
import Mathlib.Data.List.Sort

/-!
# The writers of the client libraries

`json.cpp`, `Json.java` and `JSON.swift` write a value with one recursion. They differ in the units
of their strings, in how they compare member names, in the test for an integer that is too large
and in the text of a fractional number. A string of C++ is a list of bytes, one of Java a list of
UTF-16 units and one of Swift a list of characters.
-/

namespace AuruPm

set_option autoImplicit false

open JsonValue CodeUnits

namespace Sdk

/-- What one library's writer is made of. -/
structure Writer (T D : Type) where
  string : T → List Nat
  double : D → List Nat
  /-- An integer that the canonical encoding refuses. -/
  refuses : Int64 → Bool
  /-- The members in canonical order. -/
  sort : (A : Type) → List (T × A) → List (T × A)

/-- The members of an object, each with the text of its value if there is one. -/
def joinMembers {T : Type} (string : T → List Nat) :
    List (T × Option (List Nat)) → Option (List (List Nat))
  | [] => some []
  | (name, text) :: ms =>
    text.bind fun text =>
      (joinMembers string ms).map ((string name ++ ':'.toNat :: text) :: ·)

section Write
variable {T D : Type} (W : Writer T D) (canonical : Bool)

mutual
def write : JsonValue T D → Option (List Nat)
  | .null => some (ascii "null")
  | .bool flag => some (ascii (if flag then "true" else "false"))
  | .str text => some (W.string text)
  | .int number => if canonical && W.refuses number then none else some (decimal number)
  | .dec number => if canonical then none else some (W.double number)
  | .arr elements =>
    (writeElements elements).map fun parts => '['.toNat :: (commas parts ++ [']'.toNat])
  | .obj members =>
    let texts := writeMembers members
    (joinMembers W.string (if canonical then W.sort _ texts else texts)).map fun parts =>
      '\x7b'.toNat :: (commas parts ++ ['\x7d'.toNat])
def writeElements : List (JsonValue T D) → Option (List (List Nat))
  | [] => some []
  | e :: es => (write e).bind fun text => (writeElements es).map (text :: ·)
def writeMembers : List (T × JsonValue T D) → List (T × Option (List Nat))
  | [] => []
  | (name, v) :: ms => (name, write v) :: writeMembers ms
end

end Write

/-- The largest integer that the canonical encoding writes. -/
def maxSafeInteger : Int64 := 9007199254740991

/-- A string between quotes, unit by unit. -/
def writeString (units : List Nat) : List Nat := quote units

/-! C++. -/

namespace Cpp

def nextCodePoint : List Nat → Nat × List Nat
  | [] => (0, [])
  | lead :: rest =>
    let unit (offset : Nat) := rest.getD offset 0 &&& 0x3F
    if lead < 0x80 then (lead, rest)
    else if lead &&& 0xE0 = 0xC0 then ((lead &&& 0x1F) <<< 6 ||| unit 0, rest.drop 1)
    else if lead &&& 0xF0 = 0xE0 then
      ((lead &&& 0x0F) <<< 12 ||| unit 0 <<< 6 ||| unit 1, rest.drop 2)
    else
      ((lead &&& 0x07) <<< 18 ||| unit 0 <<< 12 ||| unit 1 <<< 6 ||| unit 2, rest.drop 3)

def leadUnit (codePoint : Nat) : Nat :=
  if 0x10000 ≤ codePoint then 0xD800 + (codePoint - 0x10000) >>> 10 else codePoint

/-- The first argument bounds the code points that are compared. -/
def utf16LessFrom : Nat → List Nat → List Nat → Bool
  | 0, left, right => left.length < right.length
  | fuel + 1, left, right =>
    if left ≠ [] ∧ right ≠ [] then
      let (leftPoint, left) := nextCodePoint left
      let (rightPoint, right) := nextCodePoint right
      if leadUnit leftPoint ≠ leadUnit rightPoint then leadUnit leftPoint < leadUnit rightPoint
      else if leftPoint ≠ rightPoint then leftPoint < rightPoint
      else utf16LessFrom fuel left right
    else left.length < right.length

def utf16Less (left right : List Nat) : Bool := utf16LessFrom left.length left right

def writer {D : Type} (formatDouble : D → List Nat) : Writer (List Nat) D where
  string := writeString
  double := formatDouble
  refuses number := number > maxSafeInteger || number < -maxSafeInteger
  sort _ members := members.mergeSort fun left right => !utf16Less right.1 left.1

section
variable {D : Type} (formatDouble : D → List Nat)

def toCanonicalJson (v : JsonValue (List Nat) D) : Option (List Nat) :=
  write (writer formatDouble) true v

def toJsonText (v : JsonValue (List Nat) D) : List Nat :=
  (write (writer formatDouble) false v).getD []

end

end Cpp

/-! Java. -/

namespace Java

def compareTo : List Nat → List Nat → Int
  | a :: left, b :: right => if a ≠ b then (a : Int) - b else compareTo left right
  | left, right => (left.length : Int) - right.length

/-- Puts a member into a tree map, here the list of its entries in order. -/
def treePut {A : Type} (name : List Nat) (v : A) : List (List Nat × A) → List (List Nat × A)
  | [] => [(name, v)]
  | (name', v') :: ms =>
    if compareTo name name' < 0 then (name, v) :: (name', v') :: ms
    else if compareTo name name' = 0 then (name', v) :: ms
    else (name', v') :: treePut name v ms

def treeMap {A : Type} (members : List (List Nat × A)) : List (List Nat × A) :=
  members.foldl (fun ms m => treePut m.1 m.2 ms) []

def writer {D : Type} (doubleText : D → List Nat) : Writer (List Nat) D where
  string := writeString
  double := doubleText
  refuses number := number.abs > maxSafeInteger
  sort _ := treeMap

/-- `getBytes(UTF_8)`, with a question mark for an unpaired surrogate. -/
def getBytes : List Nat → List Nat
  | [] => []
  | u :: rest =>
    if 0xD800 ≤ u ∧ u < 0xDC00 then
      match rest with
      | [] => ['?'.toNat]
      | low :: more =>
        if 0xDC00 ≤ low ∧ low < 0xE000 then
          utf8Units (0x10000 + (u - 0xD800) * 1024 + (low - 0xDC00)) ++ getBytes more
        else '?'.toNat :: getBytes (low :: more)
    else if 0xDC00 ≤ u ∧ u < 0xE000 then '?'.toNat :: getBytes rest
    else utf8Units u ++ getBytes rest

section
variable {D : Type} (doubleText : D → List Nat)

def toCanonicalJson (v : JsonValue (List Nat) D) : Option (List Nat) :=
  write (writer doubleText) true v

def toJsonText (v : JsonValue (List Nat) D) : List Nat :=
  (write (writer doubleText) false v).getD []

end

end Java

/-! Swift. -/

namespace Swift

def unitsLess : List Nat → List Nat → Bool
  | [], [] => false
  | [], _ :: _ => true
  | _ :: _, [] => false
  | a :: left, b :: right => if a ≠ b then a < b else unitsLess left right

def utf16Less (left right : List Char) : Bool := unitsLess (utf16 left) (utf16 right)

def writer {D : Type} (doubleText : D → List Nat) : Writer (List Char) D where
  string text := writeString (scalars text)
  double := doubleText
  refuses number := number > maxSafeInteger || number < -maxSafeInteger
  sort _ members := members.mergeSort fun left right => !utf16Less right.1 left.1

section
variable {D : Type} (doubleText : D → List Nat)

/-- The scalars of the text. -/
def canonicalJSON (v : JsonValue (List Char) D) : Option (List Nat) :=
  write (writer doubleText) true v

def jsonText (v : JsonValue (List Char) D) : List Nat := (write (writer doubleText) false v).getD []

end

end Swift

end Sdk

end AuruPm
