import ProgramGraph.Decimal.Reader
import ProgramGraph.Decimal.Style
import ProgramGraph.Wire.Value

set_option autoImplicit false

/-! # Numbers in JSON

A number without fraction and exponent is an integer if it fits 64 bits with or without sign;
every other number is a float, and so is `-0`. A float is read by collecting its digits into a
64-bit word and scaling the word by a power of ten in floating point. That rounds twice, so a
text with very many digits may be read as a neighbour of the nearest float.
-/

namespace ProgramGraph.Json

open ProgramGraph.Wire

/-- The parts of a written number. -/
structure Numeral where
  negative : Bool
  /-- The digits in front of the point. -/
  whole : List Char
  /-- The digits behind the point. -/
  fraction : List Char
  /-- The exponent, if one is written. -/
  exponent : Option Int
  deriving Repr, DecidableEq

/-- The largest number of 64 bits. -/
def wordMax : Nat := UInt64.size - 1

/-- The value of an ASCII digit. -/
def digitValue (c : Char) : Nat := c.toNat - '0'.toNat

/-- Appends whole digits to the significand while it fits a word; the digits from the first
that does not fit are only counted. -/
def collectWhole (significand : Nat) : List Char → Nat × Int
  | [] => (significand, 0)
  | c :: rest =>
      let next := significand * 10 + digitValue c
      if next ≤ wordMax then collectWhole next rest else (significand, (c :: rest).length)

/-- Appends digits behind the point while they fit a word, each lowering the exponent; the
others are dropped. -/
def collectFraction (significand : Nat) (exponent : Int) : List Char → Nat × Int
  | [] => (significand, exponent)
  | c :: rest =>
      let next := significand * 10 + digitValue c
      if next ≤ wordMax then collectFraction next (exponent - 1) rest else (significand, exponent)

/-- `x` times ten to the exponent, in floating point. There is no result beyond the range of
floats. A power below `10 ^ -308` is taken in two divisions; after them a word is zero. -/
def scale? (x : Float) (exponent : Int) : Option Float :=
  let power (n : Nat) : Float := Float.ofScientific 1 false n
  if 0 ≤ exponent then
    if exponent ≤ 308 then
      let y := x * power exponent.toNat
      if y.isInf then none else some y
    else if x == 0.0 then some x else none
  else
    let n := exponent.natAbs
    if n ≤ 308 then some (x / power n)
    else if n ≤ 616 then some (x / power 308 / power (n - 308))
    else some 0.0

namespace Numeral

/-- The value of a number that is written as a float or does not fit an integer. -/
def floatValue (n : Numeral) : Value :=
  let (collected, places) := collectWhole 0 n.whole
  let (significand, shift) := collectFraction collected places n.fraction
  match scale? (UInt64.ofNat significand).toFloat (shift + n.exponent.getD 0) with
  | some x => .float (.ofFloat (if n.negative then -x else x))
  | none => .unreadable

/-- The value of a number. -/
def value (n : Numeral) : Value :=
  let whole := Decimal.natOfDigits n.whole
  if !n.fraction.isEmpty || n.exponent.isSome then n.floatValue
  else if n.negative then
    if 0 < whole && whole ≤ UInt64.size / 2 then .integer (-(whole : Int)) else n.floatValue
  else if whole ≤ wordMax then .integer whole
  else n.floatValue

end Numeral

/-- The digits at the front of a text, at least one, and what follows them. -/
def someDigits? (text : List Char) : Option (List Char × List Char) :=
  let digits := text.takeWhile Char.isDigit
  if digits.isEmpty then none else some (digits, text.dropWhile Char.isDigit)

/-- The digits in front of the point: a zero stands alone. -/
def readWhole? : List Char → Option (List Char × List Char)
  | [] => none
  | c :: rest =>
      if c = '0' then if rest.head?.any Char.isDigit then none else some (['0'], rest)
      else someDigits? (c :: rest)

/-- The fraction, empty if there is no point. -/
def readFraction? : List Char → Option (List Char × List Char)
  | [] => some ([], [])
  | c :: rest => if c = '.' then someDigits? rest else some ([], c :: rest)

/-- Whether a minus stands in front, and what follows it. -/
def splitMinus : List Char → Bool × List Char
  | [] => (false, [])
  | c :: rest => if c = '-' then (true, rest) else (false, c :: rest)

/-- Drops a plus in front. -/
def dropPlus : List Char → List Char
  | [] => []
  | c :: rest => if c = '+' then rest else c :: rest

/-- The digits of an exponent behind its sign, and what follows them. -/
def readSigned? (text : List Char) : Option (Int × List Char) :=
  let (negative, unsigned) := splitMinus text
  (someDigits? (if negative then unsigned else dropPlus unsigned)).map fun (written, after) =>
    let size : Int := Decimal.natOfDigits written
    (if negative then -size else size, after)

/-- The exponent part, if there is one. -/
def readExponent? (text : List Char) : Option (Option Int × List Char) :=
  match text with
  | c :: rest =>
      if c = 'e' || c = 'E' then (readSigned? rest).map fun (exponent, after) => (some exponent, after)
      else some (none, text)
  | [] => some (none, text)

/-- The number at the front of a text, and what follows it. -/
def readNumeral? (text : List Char) : Option (Numeral × List Char) := do
  let (negative, unsigned) := splitMinus text
  let (whole, afterWhole) ← readWhole? unsigned
  let (fraction, afterFraction) ← readFraction? afterWhole
  let (exponent, rest) ← readExponent? afterFraction
  pure (⟨negative, whole, fraction, exponent⟩, rest)

/-- Floats are written with a point or with a signed exponent: positionally from `0.00001` to
below ten million billions, and with an even last digit where two are equally near. -/
def numberStyle : Decimal.Style where
  positional := fun leading => -5 ≤ leading && leading ≤ 15
  wholePoint := true
  tie := .toEven
  infinity := "null"
  notANumber := "null"

/-- The text of a float; what is no finite number is written as null. -/
def writeFloat (x : Float) : List Char :=
  if x.isNaN || x.isInf then "null".toList else (numberStyle.render x).toList

end ProgramGraph.Json
