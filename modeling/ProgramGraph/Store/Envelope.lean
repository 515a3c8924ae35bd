import ProgramGraph.MsgPack.Decode
import ProgramGraph.MsgPack.Encode
import ProgramGraph.Time.Duration

set_option autoImplicit false

/-! # Entries that expire

A keyed store puts eight bytes in front of each value: the moment, in milliseconds, from which
on the value counts as absent, highest byte first. Zero stands for never.
-/

namespace ProgramGraph.Envelope

open ProgramGraph.Text

/-- The number of bytes in front of a value. -/
def size : Nat := 8

/-- The value with its moment of expiry in front. -/
def pack (expiry : UInt64) (payload : Bytes) : Bytes :=
  MsgPack.bigEndian size expiry.toNat ++ payload

/-- The value of an entry, unless it has expired or is too short to be one. -/
def unpack? (now : UInt64) (entry : Bytes) : Option Bytes :=
  let head := entry.take size
  if head.length < size then none
  else
    let expiry := MsgPack.natOfBytes head
    if expiry ≠ 0 && expiry ≤ now.toNat then none else some (entry.drop size)

/-- The moment at which something saved now expires, if it lives for the given span. The span
counts in milliseconds modulo `2 ^ 64`; a moment beyond the largest word is that word. -/
def expiryOf (now : UInt64) : Option Duration → UInt64
  | none => 0
  | some life =>
      UInt64.ofNat (min (now.toNat + life.milliseconds % UInt64.size) (UInt64.size - 1))

end ProgramGraph.Envelope
