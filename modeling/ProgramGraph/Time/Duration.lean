import ProgramGraph.Decimal.Magnitude
import ProgramGraph.Wire.Value

set_option autoImplicit false

/-! # Durations

A span of time in whole nanoseconds, of less than `2 ^ 64` seconds. On the wire it is a number
of seconds, rounded to the nearest nanosecond.
-/

namespace ProgramGraph

open ProgramGraph.Decimal ProgramGraph.Wire

/-- The nanoseconds of a second. -/
abbrev nanosecondsPerSecond : Nat := 1000000000

/-- The nanoseconds of a millisecond. -/
abbrev nanosecondsPerMillisecond : Nat := 1000000

/-- A span of time. -/
structure Duration where
  nanoseconds : Nat
  bounded : nanoseconds < UInt64.size * nanosecondsPerSecond
  deriving DecidableEq

/-- The quotient rounded to the nearest whole number, a half to the even one. -/
def roundHalfEven (num den : Nat) : Nat :=
  let whole := num / den
  let twice := 2 * (num % den)
  if den < twice || (twice = den && whole % 2 = 1) then whole + 1 else whole

namespace Duration

/-- The span of some nanoseconds, if it is short enough. -/
def ofNanoseconds? (n : Nat) : Option Duration :=
  if h : n < UInt64.size * nanosecondsPerSecond then some ⟨n, h⟩ else none

/-- The span of some milliseconds. -/
def ofMilliseconds (n : UInt64) : Duration where
  nanoseconds := n.toNat * nanosecondsPerMillisecond
  bounded :=
    Nat.lt_of_le_of_lt (Nat.mul_le_mul_left _ (by decide))
      (Nat.mul_lt_mul_of_pos_right n.toNat_lt_size (by decide))

/-- The span of some seconds. -/
def ofSeconds (n : UInt64) : Duration where
  nanoseconds := n.toNat * nanosecondsPerSecond
  bounded := Nat.mul_lt_mul_of_pos_right n.toNat_lt_size (by decide)

/-- No time. -/
def zero : Duration := ofSeconds 0

instance : Inhabited Duration := ⟨zero⟩

/-- The whole milliseconds in the span. -/
def milliseconds (d : Duration) : Nat := d.nanoseconds / nanosecondsPerMillisecond

/-- The magnitude in nanoseconds, rounded. -/
def nanosecondsOf (x : Magnitude) : Nat :=
  roundHalfEven ((x.significand * nanosecondsPerSecond) <<< x.exponent.toNat)
    (1 <<< (-x.exponent).toNat)

/-- The span of a number of seconds, unless that is negative, too large or no number. -/
def ofSecondsFloat? (x : Float) : Option Duration :=
  if x < 0.0 || x.isNaN || x.isInf then none
  else ofNanoseconds? (nanosecondsOf (.ofBits x.toBits))

/-- The span in seconds: the whole seconds and the rest, each as a float, added. -/
def toSecondsFloat (d : Duration) : Float :=
  (UInt64.ofNat (d.nanoseconds / nanosecondsPerSecond)).toFloat +
    (UInt64.ofNat (d.nanoseconds % nanosecondsPerSecond)).toFloat / 1000000000.0

/-- The span on the wire. -/
def toWire (d : Duration) : Value := .float (.ofFloat d.toSecondsFloat)

/-- Reads a span. -/
def ofWire? (v : Value) : Option Duration := v.float?.bind (ofSecondsFloat? ·.toFloat)

end Duration

end ProgramGraph
