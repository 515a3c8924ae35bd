import ProgramGraph.Text.CharRange

set_option autoImplicit false

/-! # Blank characters

The 25 characters with the Unicode property White_Space, and trimming a text of them.
-/

namespace ProgramGraph.Text

/-- The ranges of the Unicode property White_Space. -/
def blankRanges : CharRanges :=
  [(0x09, 0x0D), (0x20, 0x20), (0x85, 0x85), (0xA0, 0xA0), (0x1680, 0x1680), (0x2000, 0x200A),
   (0x2028, 0x2029), (0x202F, 0x202F), (0x205F, 0x205F), (0x3000, 0x3000)]

/-- The character is white space. -/
def isBlank (c : Char) : Bool := blankRanges.contains c

example : blankRanges.ascending = true ∧ blankRanges.size = 25 := by decide

/-- The characters without the blank ones at either end. -/
def trimBlank (text : List Char) : List Char :=
  (((text.dropWhile isBlank).reverse).dropWhile isBlank).reverse

end ProgramGraph.Text
