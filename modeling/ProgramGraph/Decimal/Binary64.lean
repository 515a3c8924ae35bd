set_option autoImplicit false

/-! # Binary numbers

Floating point numbers of 64 bits, kept as their bits. Two values that are no numbers may differ
in their bits, and whoever stores or copies them keeps the difference; `Float` knows a single
such value. Arithmetic and comparison therefore go through `toFloat`, storage through `bits`.
-/

namespace ProgramGraph

/-- A floating point number of 64 bits. -/
structure Binary64 where
  bits : UInt64
  deriving Repr, Inhabited

namespace Binary64

/-- The number for arithmetic and comparison. -/
def toFloat (x : Binary64) : Float := Float.ofBits x.bits

/-- The result of an arithmetic operation. -/
def ofFloat (x : Float) : Binary64 := ⟨x.toBits⟩

/-- Equality of numbers: both zeros are equal, and what is no number is not equal to itself. -/
instance : BEq Binary64 where
  beq x y := x.toFloat == y.toFloat

/-- The same number with 64 bits for one of 32 bits. A value that is no number keeps its sign
and payload and becomes a quiet one. -/
def widen (bits : UInt32) : Binary64 :=
  let sign : UInt64 := (bits >>> 31).toUInt64 <<< 63
  let payload : UInt64 := (bits &&& 0x7FFFFF).toUInt64
  let quiet : UInt64 := 0x7FF8000000000000
  if (bits >>> 23) &&& 0xFF = 0xFF && payload != 0 then ⟨sign ||| quiet ||| payload <<< 29⟩
  else ofFloat (Float32.ofBits bits).toFloat

example : (widen 0xFF800001).bits = 0xFFF8000020000000 := by decide

end Binary64

end ProgramGraph
