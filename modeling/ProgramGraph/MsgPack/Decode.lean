import ProgramGraph.Text.Utf8
import ProgramGraph.Wire.Value

set_option autoImplicit false

/-! # Reading the binary encoding

A reader of MessagePack that accepts every form: all widths of integers and lengths, and
floats of four bytes, which are widened. A text whose bytes are no text is a byte string, and
the application types of the format are unreadable values. Values may be nested 1023 deep;
lists, maps and application types make a level.
-/

namespace ProgramGraph.MsgPack

open ProgramGraph.Text ProgramGraph.Wire

/-- The number that bytes denote, highest first. -/
def natOfBytes (bytes : Bytes) : Nat := bytes.foldl (fun n b => 256 * n + b.toNat) 0

/-- The first `count` bytes, and what follows them. -/
def takeBytes? (count : Nat) (bytes : Bytes) : Option (Bytes × Bytes) :=
  let front := bytes.take count
  if front.length = count then some (front, bytes.drop count) else none

/-- A number of `count` bytes, and what follows it. -/
def takeNat? (count : Nat) (bytes : Bytes) : Option (Nat × Bytes) :=
  (takeBytes? count bytes).map fun (front, rest) => (natOfBytes front, rest)

/-- A number of `count` bytes in two's complement, and what follows it. -/
def takeInt? (count : Nat) (bytes : Bytes) : Option (Int × Bytes) :=
  (takeNat? count bytes).map fun (n, rest) =>
    (if n < 1 <<< (8 * count - 1) then (n : Int) else (n : Int) - (1 <<< (8 * count) : Nat), rest)

/-- The value of bytes that should be a text. -/
def textOf (bytes : Bytes) : Value := (ofUtf8? bytes).elim (.bytes bytes) .text

/-- The key that a value is when it stands in front of a map entry. -/
def keyOf? : Value → Option Key
  | .text s => some (.name s)
  | .bytes content => some ((ofUtf8? content).elim .nameless .name)
  | .integer (.ofNat n) => some (.position n)
  | _ => none

/-- The map with the given entries; it is unreadable if one of the keys is no key. -/
def mapOf (entries : List (Value × Value)) : Value :=
  match entries.mapM fun (key, v) => (keyOf? key).map (·, v) with
  | some named => .map named
  | none => .unreadable

/-- What the marker byte announces. -/
inductive Form where
  /-- The value itself. -/
  | whole (v : Value)
  /-- An unsigned number of so many bytes. -/
  | unsigned (width : Nat)
  /-- A signed number of so many bytes. -/
  | signed (width : Nat)
  /-- A float of so many bytes. -/
  | float (width : Nat)
  /-- A text with its length. -/
  | text (length : Nat)
  /-- A text with its length in so many bytes. -/
  | textWidth (width : Nat)
  /-- A byte string with its length in so many bytes. -/
  | bytesWidth (width : Nat)
  /-- An application type with its length. -/
  | extension (length : Nat)
  /-- An application type with its length in so many bytes. -/
  | extensionWidth (width : Nat)
  /-- A list with its length. -/
  | list (length : Nat)
  /-- A list with its length in so many bytes. -/
  | listWidth (width : Nat)
  /-- A map with its number of entries. -/
  | map (length : Nat)
  /-- A map with its number of entries in so many bytes. -/
  | mapWidth (width : Nat)

/-- What a marker byte announces; one byte is not in use. -/
def form? (marker : Nat) : Option Form :=
  if marker < 0x80 then some (.whole (.integer marker))
  else if marker < 0x90 then some (.map (marker - 0x80))
  else if marker < 0xa0 then some (.list (marker - 0x90))
  else if marker < 0xc0 then some (.text (marker - 0xa0))
  else if 0xe0 ≤ marker then some (.whole (.signed ((marker : Int) - 256)))
  else match marker with
    | 0xc0 => some (.whole .null)
    | 0xc2 => some (.whole (.bool false))
    | 0xc3 => some (.whole (.bool true))
    | 0xc4 => some (.bytesWidth 1)
    | 0xc5 => some (.bytesWidth 2)
    | 0xc6 => some (.bytesWidth 4)
    | 0xc7 => some (.extensionWidth 1)
    | 0xc8 => some (.extensionWidth 2)
    | 0xc9 => some (.extensionWidth 4)
    | 0xca => some (.float 4)
    | 0xcb => some (.float 8)
    | 0xcc => some (.unsigned 1)
    | 0xcd => some (.unsigned 2)
    | 0xce => some (.unsigned 4)
    | 0xcf => some (.unsigned 8)
    | 0xd0 => some (.signed 1)
    | 0xd1 => some (.signed 2)
    | 0xd2 => some (.signed 4)
    | 0xd3 => some (.signed 8)
    | 0xd4 => some (.extension 1)
    | 0xd5 => some (.extension 2)
    | 0xd6 => some (.extension 4)
    | 0xd7 => some (.extension 8)
    | 0xd8 => some (.extension 16)
    | 0xd9 => some (.textWidth 1)
    | 0xda => some (.textWidth 2)
    | 0xdb => some (.textWidth 4)
    | 0xdc => some (.listWidth 2)
    | 0xdd => some (.listWidth 4)
    | 0xde => some (.mapWidth 2)
    | 0xdf => some (.mapWidth 4)
    | _ => none

/-- The float with the given bits in four or eight bytes. -/
def floatOfBits (width bits : Nat) : Binary64 :=
  if width = 4 then .widen (UInt32.ofNat bits) else ⟨UInt64.ofNat bits⟩

/-- A text of a length, and what follows it. -/
def readText? (length : Nat) (bytes : Bytes) : Option (Value × Bytes) :=
  (takeBytes? length bytes).map fun (front, rest) => (textOf front, rest)

/-- A byte string of a length, and what follows it. -/
def readBytes? (length : Nat) (bytes : Bytes) : Option (Value × Bytes) :=
  (takeBytes? length bytes).map fun (front, rest) => (.bytes front, rest)

/-- An application type, if a level is left for it: a byte for the type, then so many bytes. -/
def skipExtension? (depth length : Nat) (bytes : Bytes) : Option (Value × Bytes) :=
  if depth = 0 then none
  else (takeBytes? (length + 1) bytes).map fun (_, rest) => (.unreadable, rest)

/-- The deepest nesting. -/
def maxDepth : Nat := 1023

mutual

/-- The value at the front of the bytes, and what follows it. `fuel` bounds the number of
calls in a row, `depth` the nesting that is left. -/
def read? : Nat → Nat → Bytes → Option (Value × Bytes)
  | 0, _, _ => none
  | _, _, [] => none
  | fuel + 1, depth, marker :: bytes => do
      match ← form? marker.toNat with
      | .whole v => pure (v, bytes)
      | .unsigned width =>
          let (n, rest) ← takeNat? width bytes
          pure (.integer n, rest)
      | .signed width =>
          let (n, rest) ← takeInt? width bytes
          pure (.signed n, rest)
      | .float width =>
          let (n, rest) ← takeNat? width bytes
          pure (.float (floatOfBits width n), rest)
      | .text length => readText? length bytes
      | .textWidth width =>
          let (length, rest) ← takeNat? width bytes
          readText? length rest
      | .bytesWidth width =>
          let (length, rest) ← takeNat? width bytes
          readBytes? length rest
      | .extension length => skipExtension? depth length bytes
      | .extensionWidth width =>
          let (length, rest) ← takeNat? width bytes
          skipExtension? depth length rest
      | .list length => readList? fuel depth length bytes
      | .listWidth width =>
          let (length, rest) ← takeNat? width bytes
          readList? fuel depth length rest
      | .map length => readMap? fuel depth length bytes
      | .mapWidth width =>
          let (length, rest) ← takeNat? width bytes
          readMap? fuel depth length rest

/-- A list of a length. -/
def readList? : Nat → Nat → Nat → Bytes → Option (Value × Bytes)
  | 0, _, _, _ => none
  | _, 0, _, _ => none
  | fuel + 1, depth + 1, length, bytes =>
      (readItems? fuel depth length bytes).map fun (items, rest) => (.list items, rest)

/-- A map with a number of entries. -/
def readMap? : Nat → Nat → Nat → Bytes → Option (Value × Bytes)
  | 0, _, _, _ => none
  | _, 0, _, _ => none
  | fuel + 1, depth + 1, length, bytes =>
      (readEntries? fuel depth length bytes).map fun (entries, rest) => (mapOf entries, rest)

/-- So many values in a row. -/
def readItems? : Nat → Nat → Nat → Bytes → Option (List Value × Bytes)
  | 0, _, _, _ => none
  | _, _, 0, bytes => some ([], bytes)
  | fuel + 1, depth, count + 1, bytes => do
      let (v, rest) ← read? fuel depth bytes
      let (items, after) ← readItems? fuel depth count rest
      pure (v :: items, after)

/-- So many entries in a row, each a key and a value. -/
def readEntries? : Nat → Nat → Nat → Bytes → Option (List (Value × Value) × Bytes)
  | 0, _, _, _ => none
  | _, _, 0, bytes => some ([], bytes)
  | fuel + 1, depth, count + 1, bytes => do
      let (key, afterKey) ← read? fuel depth bytes
      let (v, rest) ← read? fuel depth afterKey
      let (entries, after) ← readEntries? fuel depth count rest
      pure ((key, v) :: entries, after)

end

/-- The value that starts the bytes; what follows it does not matter. A chain of calls reads
at least one byte in every three. -/
def decode? (bytes : Bytes) : Option Value :=
  (read? (3 * bytes.length + 3) maxDepth bytes).map Prod.fst

end ProgramGraph.MsgPack
