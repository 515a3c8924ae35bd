import ProgramGraph.Text.Utf8
import ProgramGraph.Wire.Value

set_option autoImplicit false

/-! # The binary encoding

Writing values as MessagePack. Every integer and every length takes the shortest form that
holds it; integers that are not negative take the unsigned forms; floats take eight bytes.
-/

namespace ProgramGraph.MsgPack

open ProgramGraph.Text ProgramGraph.Wire

/-- The lowest `count` bytes of a number, highest first. -/
def bigEndian (count n : Nat) : Bytes :=
  (List.range count).map fun i => UInt8.ofNat (n >>> (8 * (count - 1 - i)))

/-- A length with a short form inside the marker byte and forms of two and four bytes. -/
def writeLength (short : UInt8) (shortBound : Nat) (two four : UInt8) (n : Nat) : Bytes :=
  if n < shortBound then [short ||| UInt8.ofNat n]
  else if n < UInt16.size then two :: bigEndian 2 n
  else four :: bigEndian 4 n

/-- An integer that is not negative. -/
def writeNat (n : Nat) : Bytes :=
  if n < 128 then [UInt8.ofNat n]
  else if n < UInt8.size then 0xcc :: bigEndian 1 n
  else if n < UInt16.size then 0xcd :: bigEndian 2 n
  else if n < UInt32.size then 0xce :: bigEndian 4 n
  else 0xcf :: bigEndian 8 n

/-- The negative integer `-n - 1`. -/
def writeNegative (n : Nat) : Bytes :=
  if n < 32 then [UInt8.ofNat (255 - n)]
  else if n < UInt8.size / 2 then 0xd0 :: bigEndian 1 (UInt8.size - 1 - n)
  else if n < UInt16.size / 2 then 0xd1 :: bigEndian 2 (UInt16.size - 1 - n)
  else if n < UInt32.size / 2 then 0xd2 :: bigEndian 4 (UInt32.size - 1 - n)
  else 0xd3 :: bigEndian 8 (UInt64.size - 1 - n)

/-- An integer. -/
def writeInteger : Int → Bytes
  | .ofNat n => writeNat n
  | .negSucc n => writeNegative n

/-- A text: its length in bytes and its bytes. -/
def writeText (s : String) : Bytes :=
  let bytes := utf8 s
  let n := bytes.length
  let length :=
    if 32 ≤ n && n < UInt8.size then 0xd9 :: bigEndian 1 n else writeLength 0xa0 32 0xda 0xdb n
  length ++ bytes

/-- A byte string: its length and its bytes. -/
def writeBytes (content : Bytes) : Bytes :=
  let n := content.length
  (if n < UInt8.size then 0xc4 :: bigEndian 1 n else writeLength 0 0 0xc5 0xc6 n) ++ content

/-- The key of a map entry. -/
def writeKey : Key → Bytes
  | .name s => writeText s
  | .position n => writeNat n
  | .nameless => writeBytes []

mutual

/-- The encoding of a value. -/
def encode : Value → Bytes
  | .null | .unreadable => [0xc0]
  | .bool b => [if b then 0xc3 else 0xc2]
  | .integer n | .signed n => writeInteger n
  | .float x => 0xcb :: bigEndian 8 x.bits.toNat
  | .text s => writeText s
  | .bytes content => writeBytes content
  | .list items => writeLength 0x90 16 0xdc 0xdd items.length ++ encodeItems items
  | .map entries => writeLength 0x80 16 0xde 0xdf entries.length ++ encodeEntries entries

/-- The encodings of the items of a list. -/
def encodeItems : List Value → Bytes
  | [] => []
  | v :: rest => encode v ++ encodeItems rest

/-- The encodings of the entries of a map. -/
def encodeEntries : List (Key × Value) → Bytes
  | [] => []
  | (key, v) :: rest => writeKey key ++ encode v ++ encodeEntries rest

end

end ProgramGraph.MsgPack
