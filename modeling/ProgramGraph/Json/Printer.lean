import Std.Data.TreeMap
import ProgramGraph.Json.Number
import ProgramGraph.Json.Quoted

set_option autoImplicit false

/-! # Writing JSON

The compact text of a value: no space, entries in their order. `ordered` puts the entries of
maps in the order of their names first.
-/

namespace ProgramGraph.Json

open ProgramGraph.Wire

/-- The text of a map key. -/
def writeKey (key : Key) : List Char := quote key.display

/-- The bytes of a byte string as numbers, and the closing bracket. -/
def writeBytes : Text.Bytes → List Char
  | [] => [']']
  | [b] => (toString b.toNat).toList ++ [']']
  | b :: c :: rest => (toString b.toNat).toList ++ ',' :: writeBytes (c :: rest)

mutual

/-- The text of a value. -/
def writeValue : Value → List Char
  | .null | .unreadable => "null".toList
  | .bool b => (if b then "true" else "false").toList
  | .integer n | .signed n => (toString n).toList
  | .float x => writeFloat x.toFloat
  | .text s => quote s
  | .bytes content => '[' :: writeBytes content
  | .list items => '[' :: writeItems items
  | .map entries => '{' :: writeEntries entries

/-- The items of a list and the closing bracket. -/
def writeItems : List Value → List Char
  | [] => [']']
  | [v] => writeValue v ++ [']']
  | v :: w :: rest => writeValue v ++ ',' :: writeItems (w :: rest)

/-- The entries of a map and the closing brace. -/
def writeEntries : List (Key × Value) → List Char
  | [] => ['}']
  | [(key, v)] => writeKey key ++ ':' :: writeValue v ++ ['}']
  | (key, v) :: next :: rest =>
      writeKey key ++ ':' :: writeValue v ++ ',' :: writeEntries (next :: rest)

end

mutual

/-- The value with the entries of each map in the order of their names, the last of several
with one name. -/
def ordered : Value → Value
  | .list items => .list (orderedItems items)
  | .map entries =>
      let sorted := (orderedEntries entries).foldl
        (fun (acc : Std.TreeMap String Value) entry => acc.insert entry.1 entry.2) ∅
      .map (sorted.toList.map fun (key, v) => (Key.name key, v))
  | v => v

/-- The items of a list, each with ordered maps. -/
def orderedItems : List Value → List Value
  | [] => []
  | v :: rest => ordered v :: orderedItems rest

/-- The named entries of a map, each with ordered maps in its value. -/
def orderedEntries : List (Key × Value) → List (String × Value)
  | [] => []
  | (.name key, v) :: rest => (key, ordered v) :: orderedEntries rest
  | _ :: rest => orderedEntries rest

end

/-- The text of a value. -/
def print (v : Value) : String := String.ofList (writeValue v)

end ProgramGraph.Json
