import ProgramGraph.Text.Ascii

set_option autoImplicit false

/-! # Reading numbers

A decimal text is read as the nearest binary64 number, ties to even. The grammar is an
optional sign, then either one of the words for infinity and not-a-number in any case of
letters, or digits with at most one point among them and an optional signed exponent; at
least one digit must stand in front of the exponent.
-/

namespace ProgramGraph.Decimal

/-- The number that a string of ASCII digits denotes. -/
def natOfDigits (digits : List Char) : Nat :=
  digits.foldl (fun n c => 10 * n + (c.toNat - '0'.toNat)) 0

/-- `significand * 10 ^ exponent`, rounded once. Exponents that can only end in infinity or in
zero are cut off before a power of ten is formed. -/
def scaled (significand : Nat) (exponent : Int) : Float :=
  let size : Int := (Nat.toDigits 10 significand).length + exponent
  if significand = 0 || size < -330 then 0.0
  else if 320 < size then 1.0 / 0.0
  else Float.ofScientific significand (exponent < 0) exponent.natAbs

/-- An exponent part: a sign that may be left out, and digits to the end of the text. -/
def readExponent? (text : List Char) : Option Int :=
  let (negative, digits) := match text with
    | '-' :: rest => (true, rest)
    | '+' :: rest => (false, rest)
    | rest => (false, rest)
  if digits.isEmpty || !digits.all Char.isDigit then none
  else some (if negative then -(natOfDigits digits : Int) else natOfDigits digits)

/-- A decimal without sign. -/
def readMagnitude? (text : List Char) : Option Float :=
  let whole := text.takeWhile Char.isDigit
  let afterWhole := text.dropWhile Char.isDigit
  let (fraction, rest) := match afterWhole with
    | '.' :: more => (more.takeWhile Char.isDigit, more.dropWhile Char.isDigit)
    | _ => ([], afterWhole)
  if whole.isEmpty && fraction.isEmpty then none
  else
    let significand := natOfDigits (whole ++ fraction)
    match rest with
    | [] => some (scaled significand (-(fraction.length : Int)))
    | c :: more =>
        if c = 'e' || c = 'E' then
          (readExponent? more).map fun e => scaled significand (e - fraction.length)
        else none

/-- A number without sign: a word or a decimal. -/
def readUnsigned? (text : List Char) : Option Float :=
  let word := String.ofList (text.map Char.toLower)
  if word = "inf" || word = "infinity" then some (1.0 / 0.0)
  else if word = "nan" then some (0.0 / 0.0)
  else readMagnitude? text

/-- The number that a text denotes, if it denotes one. -/
def read? (text : List Char) : Option Float :=
  match text with
  | '-' :: rest => (readUnsigned? rest).map fun x => -x
  | '+' :: rest => readUnsigned? rest
  | rest => readUnsigned? rest

end ProgramGraph.Decimal
