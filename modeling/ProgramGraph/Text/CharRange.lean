set_option autoImplicit false

/-! # Sets of characters as ranges of code points

A class of characters given by a standard is a list of closed ranges of code points. The
tables of this folder (`Text/Blank`, `Text/DecimalDigit`, `Text/Cased`) are such lists, and
`contains` is the one function that reads them.
-/

namespace ProgramGraph.Text

/-- Closed ranges of code points, ascending and apart. -/
abbrev CharRanges := List (Nat × Nat)

namespace CharRanges

/-- Some range of the list holds the character. -/
def contains (ranges : CharRanges) (c : Char) : Bool :=
  ranges.any fun range => range.1 ≤ c.toNat && c.toNat ≤ range.2

/-- Each range is not empty, and a gap separates it from the next one. -/
def ascending : CharRanges → Bool
  | [] => true
  | [range] => range.1 ≤ range.2
  | first :: second :: rest =>
      first.1 ≤ first.2 && first.2 + 1 < second.1 && ascending (second :: rest)

/-- The number of code points in the ranges. -/
def size (ranges : CharRanges) : Nat :=
  ranges.foldr (fun range total => range.2 + 1 - range.1 + total) 0

end CharRanges

end ProgramGraph.Text
