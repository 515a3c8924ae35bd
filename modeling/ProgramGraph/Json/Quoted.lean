import ProgramGraph.Decimal.Reader
import ProgramGraph.Text.Hex

set_option autoImplicit false

/-! # Quoted texts in JSON

A text stands between quotes. A quote, a backslash and the control characters are written as
escapes; a reader also accepts escapes for other characters, two of them in a row for a
character above the first 65536.
-/

namespace ProgramGraph.Json

open ProgramGraph.Text

/-- What stands at one place of a quoted text. -/
inductive Unit16 where
  /-- A character, plain or by its short escape. -/
  | char (c : Char)
  /-- A number of 16 bits, from an escape with four digits. -/
  | code (n : Nat)
  deriving Repr, DecidableEq

/-- The characters that a text is written with between the quotes. -/
def escape (c : Char) : List Char :=
  if c = '"' then ['\\', '"']
  else if c = '\\' then ['\\', '\\']
  else if c = '\x08' then ['\\', 'b']
  else if c = '\x0c' then ['\\', 'f']
  else if c = '\n' then ['\\', 'n']
  else if c = '\r' then ['\\', 'r']
  else if c = '\t' then ['\\', 't']
  else if c.toNat < 0x20 then
    ['\\', 'u', '0', '0', hexDigit (c.toNat / 16), hexDigit (c.toNat % 16)]
  else [c]

/-- The text between quotes. -/
def quote (text : String) : List Char := ['"'] ++ text.toList.flatMap escape ++ ['"']

/-- The character that a backslash with this letter stands for. -/
def unescape? : Char → Option Char
  | '"' => some '"'
  | '\\' => some '\\'
  | '/' => some '/'
  | 'b' => some '\x08'
  | 'f' => some '\x0c'
  | 'n' => some '\n'
  | 'r' => some '\r'
  | 't' => some '\t'
  | _ => none

/-- Reads up to the closing quote, the opening one being read already. -/
def readUnits? : List Char → Option (List Unit16 × List Char)
  | [] => none
  | '"' :: rest => some ([], rest)
  | '\\' :: 'u' :: a :: b :: c :: d :: rest => do
      let n := 4096 * (← hexValue? a) + 256 * (← hexValue? b) + 16 * (← hexValue? c)
        + (← hexValue? d)
      let (units, after) ← readUnits? rest
      pure (.code n :: units, after)
  | '\\' :: letter :: rest => do
      let c ← unescape? letter
      let (units, after) ← readUnits? rest
      pure (.char c :: units, after)
  | c :: rest =>
      if c = '\\' || c.toNat < 0x20 then none
      else (readUnits? rest).map fun (units, after) => (.char c :: units, after)

/-- The characters that the units denote. Two codes that form a pair are one character, and a
code that is half of a pair denotes nothing alone. -/
def joinUnits? : List Unit16 → Option (List Char)
  | [] => some []
  | .char c :: rest => (joinUnits? rest).map (c :: ·)
  | .code n :: rest =>
      if 0xD800 ≤ n && n < 0xDC00 then
        match rest with
        | .code low :: more =>
            if 0xDC00 ≤ low && low < 0xE000 then
              let c := Char.ofNat (0x10000 + (n - 0xD800) * 0x400 + (low - 0xDC00))
              (joinUnits? more).map (c :: ·)
            else none
        | _ => none
      else if 0xDC00 ≤ n && n < 0xE000 then none
      else (joinUnits? rest).map (Char.ofNat n :: ·)

/-- The quoted text whose opening quote is read already, and what follows it. The text itself
is missing if a half of a pair stands alone in it. -/
def readQuoted? (input : List Char) : Option (Option String × List Char) :=
  (readUnits? input).map fun (units, after) => ((joinUnits? units).map String.ofList, after)

end ProgramGraph.Json
