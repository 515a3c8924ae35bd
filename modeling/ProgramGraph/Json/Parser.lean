import ProgramGraph.Json.Number
import ProgramGraph.Json.Quoted

set_option autoImplicit false

/-! # Reading JSON

The grammar of JSON texts. Every call of the three readers for values, items and entries
consumes a character before it calls another, so the length of the text bounds their depth;
`parse?` starts them with that bound.
-/

namespace ProgramGraph.Json

open ProgramGraph.Wire

/-- The characters that may stand between the parts of a text. -/
def isSpace (c : Char) : Bool := c = ' ' || c = '\n' || c = '\t' || c = '\r'

/-- Drops the space in front. -/
def skipSpace (text : List Char) : List Char := text.dropWhile isSpace

/-- The rest of the text behind a word that stands at its front. -/
def after? (word : String) (text : List Char) : Option (List Char) :=
  if word.toList.isPrefixOf text then some (text.drop word.length) else none

/-- The map with the given entries. A map one of whose keys is no text cannot be read. -/
def mapOf (entries : List (Option String × Value)) : Value :=
  match entries.mapM fun (key, v) => key.map fun k => (Key.name k, v) with
  | some named => .map named
  | none => .unreadable

mutual

/-- The value at the front of the text, space skipped, and what follows it. -/
def readValue? : Nat → List Char → Option (Value × List Char)
  | 0, _ => none
  | depth + 1, text =>
      match skipSpace text with
      | '"' :: rest =>
          (readQuoted? rest).map fun (s, after) => (s.elim .unreadable .text, after)
      | '[' :: rest =>
          match skipSpace rest with
          | ']' :: after => some (.list [], after)
          | _ => (readItems? depth rest).map fun (items, after) => (.list items, after)
      | '{' :: rest =>
          match skipSpace rest with
          | '}' :: after => some (.map [], after)
          | _ => (readEntries? depth rest).map fun (entries, after) => (mapOf entries, after)
      | 'n' :: rest => (after? "ull" rest).map fun after => (.null, after)
      | 't' :: rest => (after? "rue" rest).map fun after => (.bool true, after)
      | 'f' :: rest => (after? "alse" rest).map fun after => (.bool false, after)
      | other => (readNumeral? other).map fun (n, after) => (n.value, after)

/-- The items of a list up to its closing bracket, at least one. -/
def readItems? : Nat → List Char → Option (List Value × List Char)
  | 0, _ => none
  | depth + 1, text => do
      let (item, rest) ← readValue? depth text
      match skipSpace rest with
      | ',' :: more =>
          let (items, after) ← readItems? depth more
          pure (item :: items, after)
      | ']' :: after => pure ([item], after)
      | _ => none

/-- The entries of a map up to its closing brace, at least one. -/
def readEntries? : Nat → List Char → Option (List (Option String × Value) × List Char)
  | 0, _ => none
  | depth + 1, text =>
      match skipSpace text with
      | '"' :: start => do
          let (key, rest) ← readQuoted? start
          match skipSpace rest with
          | ':' :: valueText =>
              let (v, rest) ← readValue? depth valueText
              match skipSpace rest with
              | ',' :: more =>
                  let (entries, after) ← readEntries? depth more
                  pure ((key, v) :: entries, after)
              | '}' :: after => pure ([(key, v)], after)
              | _ => none
          | _ => none
      | _ => none

end

/-- The value that a text denotes: one value, and nothing but space around it. -/
def parse? (text : String) : Option Value := do
  let chars := text.toList
  let (v, rest) ← readValue? (chars.length + 1) chars
  if (skipSpace rest).isEmpty then pure v else none

end ProgramGraph.Json
