import ProgramGraph.Decimal.Shortest

set_option autoImplicit false

/-! # Written numbers

How the shortest digits of a number are laid out. A format that writes numbers fixes the open
decisions in one `Style` value: which exponents are written positionally, whether a whole
number keeps a decimal, which of two nearest decimals is taken, and the words for the values
that have no digits.
-/

namespace ProgramGraph.Decimal

/-- The decisions of a number format. -/
structure Style where
  /-- The exponents of the leading digit that are written without an exponent part. -/
  positional : Int → Bool
  /-- A whole number is written with the decimal `.0`. -/
  wholePoint : Bool
  /-- The choice between two equally near decimals. -/
  tie : Tie
  /-- The word for infinity, behind a sign if it is negative. -/
  infinity : String
  /-- The word for a value that is no number. -/
  notANumber : String

namespace Style

/-- The digits with the point at its place, zeros filling the gaps. -/
def layPlain (style : Style) (d : Digits) : List Char :=
  if d.point ≤ 0 then
    ['0', '.'] ++ List.replicate (-d.point).toNat '0' ++ d.digits
  else if (d.digits.length : Int) ≤ d.point then
    d.digits ++ List.replicate (d.point.toNat - d.digits.length) '0' ++
      (if style.wholePoint then ['.', '0'] else [])
  else
    d.digits.take d.point.toNat ++ ['.'] ++ d.digits.drop d.point.toNat

/-- One digit in front of the point, and a signed exponent. -/
def layScientific (d : Digits) : List Char :=
  let exponent := d.point - 1
  let fraction := if d.digits.length ≤ 1 then [] else '.' :: d.digits.drop 1
  d.digits.take 1 ++ fraction ++ ['e', if exponent < 0 then '-' else '+'] ++
    Nat.toDigits 10 exponent.natAbs

/-- The text of a magnitude. -/
def layMagnitude (style : Style) (x : Magnitude) : List Char :=
  if x.significand = 0 then ['0'] ++ (if style.wholePoint then ['.', '0'] else [])
  else
    let d := x.shortest style.tie
    if style.positional (d.point - 1) then style.layPlain d else layScientific d

/-- The text of a number. Zero keeps its sign. -/
def render (style : Style) (x : Float) : String :=
  if x.isNaN then style.notANumber
  else
    let bits := x.toBits
    let sign := if bits >>> 63 = 1 then "-" else ""
    if x.isInf then sign ++ style.infinity
    else sign ++ String.ofList (style.layMagnitude (.ofBits bits))

end Style

/-- Numbers in running text: never an exponent, and a whole number without a point. -/
def plain : Style where
  positional := fun _ => true
  wholePoint := false
  tie := .upward
  infinity := "inf"
  notANumber := "NaN"

end ProgramGraph.Decimal
