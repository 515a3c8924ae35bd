import ProgramGraph.Decimal.Magnitude

set_option autoImplicit false

/-! # The shortest decimal that reads back

A number is written with the fewest decimal digits that round to it, and among equally short
ones with the nearest. The search asks, for one digit, two digits and so on, whether one of
the number's two neighbours on that decimal grid reads back; seventeen digits always suffice.
-/

namespace ProgramGraph.Decimal

/-- Which of two equally near decimals of the same length is taken. -/
inductive Tie where
  /-- The one whose last digit is even. -/
  | toEven
  /-- The larger one. -/
  | upward
  deriving Repr, DecidableEq

/-- The decimal `0.d₁d₂… * 10 ^ point`. -/
structure Digits where
  /-- The digits, the first and the last of them not zero. -/
  digits : List Char
  /-- The place of the point, counted from in front of the first digit. -/
  point : Int
  deriving Repr, DecidableEq

namespace Digits

/-- `count * 10 ^ grid` without trailing zeros. -/
def ofCount (count : Nat) (grid : Int) : Digits :=
  let written := Nat.toDigits 10 count
  { digits := (written.reverse.dropWhile (· == '0')).reverse
    point := written.length + grid }

end Digits

namespace Magnitude

/-- The multiple of `10 ^ grid` nearest to the magnitude that reads back as it, if one of its
two neighbours on the grid does. -/
def nearestOn (x : Magnitude) (tie : Tie) (grid : Int) : Option Nat :=
  let (num, den) := x.quarterPlace grid
  let below := 4 * x.significand * num / den
  match x.roundsFrom below grid, x.roundsFrom (below + 1) grid with
  | true, true =>
      match compare (2 * (4 * x.significand * num)) ((2 * below + 1) * den), tie with
      | .lt, _ => some below
      | .gt, _ => some (below + 1)
      | .eq, .upward => some (below + 1)
      | .eq, .toEven => some (if below % 2 = 0 then below else below + 1)
  | true, false => some below
  | false, true => some (below + 1)
  | false, false => none

/-- The whole expansion of the magnitude: `m * 2 ^ -q` is `m * 5 ^ q * 10 ^ -q`. -/
def exactDigits (x : Magnitude) : Digits :=
  if 0 ≤ x.exponent then .ofCount (x.significand <<< x.exponent.toNat) 0
  else .ofCount (x.significand * Nat.pow 5 (-x.exponent).toNat) x.exponent

/-- The shortest decimal that reads back as the magnitude, which is not zero. -/
def shortest (x : Magnitude) (tie : Tie) : Digits :=
  let whole := x.wholeDigits
  let found := (List.range 17).findSome? fun (places : Nat) =>
    let grid := whole - 1 - places
    (x.nearestOn tie grid).map (Digits.ofCount · grid)
  found.getD x.exactDigits

end Magnitude

end ProgramGraph.Decimal
