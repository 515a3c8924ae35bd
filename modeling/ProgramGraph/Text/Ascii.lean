set_option autoImplicit false

/-! # Letter case of ASCII letters

Type names and keywords are compared without regard to the case of the 26 ASCII letters;
every other character stands only for itself.
-/

namespace ProgramGraph.Text

/-- The text with the letters `A` to `Z` in lower case and all else unchanged. -/
def lowerAscii (text : String) : String := String.ofList (text.toList.map Char.toLower)

/-- The two texts agree up to the case of ASCII letters. -/
def equalIgnoringAsciiCase (a b : String) : Bool :=
  a.toList.map Char.toLower == b.toList.map Char.toLower

/-- Character by character text containment: `part` occurs somewhere in `whole`. -/
def containsText (whole part : List Char) : Bool :=
  match whole with
  | [] => part.isEmpty
  | c :: rest => part.isPrefixOf (c :: rest) || containsText rest part

end ProgramGraph.Text
