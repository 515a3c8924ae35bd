set_option autoImplicit false

/-! # Texts as bytes

Keys and stored values are sequences of bytes, so texts enter them by their UTF-8 encoding.
A text is ordered by its characters, which is the order of its bytes. Bytes that are no
encoding can still be shown: each broken piece becomes one replacement character.
-/

namespace ProgramGraph.Text

/-- A sequence of bytes. -/
abbrev Bytes := List UInt8

/-- The UTF-8 encoding of a text. -/
def utf8 (text : String) : Bytes := text.toList.flatMap String.utf8EncodeChar

/-- The text whose UTF-8 encoding the bytes are, if they are one. -/
def ofUtf8? (bytes : Bytes) : Option String := String.fromUTF8? ⟨bytes.toArray⟩

/-! ## Showing bytes -/

/-- What stands for a broken piece. -/
def replacement : Char := '\uFFFD'

/-- The ranges in which the bytes of a character lie that follow its first byte. There are
none for a byte that is a character by itself or begins none. -/
def followers (first : UInt8) : List (UInt8 × UInt8) :=
  let any : UInt8 × UInt8 := (0x80, 0xBF)
  if first < 0xC2 then []
  else if first < 0xE0 then [any]
  else if first = 0xE0 then [(0xA0, 0xBF), any]
  else if first = 0xED then [(0x80, 0x9F), any]
  else if first < 0xF0 then [any, any]
  else if first = 0xF0 then [(0x90, 0xBF), any, any]
  else if first < 0xF4 then [any, any, any]
  else if first = 0xF4 then [(0x80, 0x8F), any, any]
  else []

/-- How many bytes at the front lie in the ranges, one in each. -/
def fitting : List (UInt8 × UInt8) → Bytes → Nat
  | (low, high) :: ranges, b :: rest =>
      if low ≤ b && b ≤ high then fitting ranges rest + 1 else 0
  | _, _ => 0

/-- The characters that the bytes encode. The beginning of a character that does not go on, and
a byte that begins none, are broken pieces. -/
def shownChars : Bytes → List Char
  | [] => []
  | first :: rest =>
      let n := fitting (followers first) rest
      (ofUtf8? (first :: rest.take n)).elim [replacement] String.toList ++
        shownChars (rest.drop n)
  termination_by bytes => bytes.length

/-- The text that the bytes encode, broken pieces replaced. -/
def showUtf8 (bytes : Bytes) : String := String.ofList (shownChars bytes)

end ProgramGraph.Text
