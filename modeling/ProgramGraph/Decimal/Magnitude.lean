set_option autoImplicit false

/-! # Binary magnitudes

The size of a finite binary64 number as an exact multiple of a power of two, and the interval
of real numbers that round to it. Everything here is exact arithmetic on natural numbers.
-/

namespace ProgramGraph.Decimal

/-- Ten to a power. -/
def powerOfTen (n : Nat) : Nat := Nat.pow 10 n

/-- The finite magnitude `significand * 2 ^ exponent`. -/
structure Magnitude where
  /-- The integer multiple. -/
  significand : Nat
  /-- The power of two. -/
  exponent : Int
  /-- The magnitude is a power of two whose lower neighbour is half as far away as its upper
  one. -/
  narrowBelow : Bool
  deriving Repr, DecidableEq

namespace Magnitude

/-- The magnitude that the bits of a finite number denote. The sign bit does not matter. -/
def ofBits (bits : UInt64) : Magnitude :=
  let scale := ((bits >>> 52) &&& 0x7FF).toNat
  let fraction := (bits &&& 0xFFFFFFFFFFFFF).toNat
  if scale = 0 then ⟨fraction, -1074, false⟩
  else ⟨(1 <<< 52) + fraction, (scale : Int) - 1075, fraction == 0 && scale > 1⟩

/-- The quarter of the magnitude's last place, `2 ^ (exponent - 2)`, measured in the unit
`10 ^ grid`: a quotient of two natural numbers. -/
def quarterPlace (x : Magnitude) (grid : Int) : Nat × Nat :=
  let power := x.exponent - 2
  (powerOfTen (-grid).toNat <<< power.toNat, powerOfTen grid.toNat <<< (-power).toNat)

/-- The decimal `count * 10 ^ grid` lies among the real numbers that round to the magnitude:
between the halfway points to its two neighbours, which count as inside exactly when the
significand is even. -/
def roundsFrom (x : Magnitude) (count : Nat) (grid : Int) : Bool :=
  let (num, den) := x.quarterPlace grid
  let low := (4 * x.significand - (if x.narrowBelow then 1 else 2)) * num
  let high := (4 * x.significand + 2) * num
  if x.significand % 2 = 0 then low ≤ count * den && count * den ≤ high
  else low < count * den && count * den < high

/-- The number of decimal digits in front of the point: the least `k` with the magnitude below
`10 ^ k`, for a magnitude other than zero. The magnitude is scaled by `10 ^ 330`, which lifts
the least positive one above a million, so that counting the digits of the whole part loses
nothing. -/
def wholeDigits (x : Magnitude) : Int :=
  let scaled :=
    ((x.significand * powerOfTen 330) <<< x.exponent.toNat) >>> (-x.exponent).toNat
  ((Nat.toDigits 10 scaled).length : Int) - 330

end Magnitude

end ProgramGraph.Decimal
