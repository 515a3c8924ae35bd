import Std.Data.Iterators
import Std.Data.TreeMap
import ProgramGraph.Text.Utf8

set_option autoImplicit false

/-! # Byte maps

A map from byte sequences to byte sequences, in the order of its keys. Keys with a common
beginning stand next to each other in that order, so a scan starts at the beginning and ends
with the first key that does not have it.
-/

namespace ProgramGraph

open ProgramGraph.Text

/-- Values by key, in the order of the keys. -/
abbrev ByteMap := Std.TreeMap Bytes Bytes

/-- A change of one key. -/
inductive ByteWrite where
  | put (key value : Bytes)
  | delete (key : Bytes)
  deriving Repr, DecidableEq

/-- The key that a change touches. -/
def ByteWrite.key : ByteWrite → Bytes
  | .put key _ => key
  | .delete key => key

namespace ByteMap

/-- The map after one change. -/
def write (m : ByteMap) : ByteWrite → ByteMap
  | .put key value => m.insert key value
  | .delete key => m.erase key

/-- The map after several changes, in their order. -/
def writeAll (m : ByteMap) (writes : List ByteWrite) : ByteMap := writes.foldl write m

/-- The values of several keys, in the order of the request. -/
def getMany (m : ByteMap) (keys : List Bytes) : List (Option Bytes) := keys.map fun key => m[key]?

/-- The entries whose key begins with the given bytes, in the order of the keys. -/
def scan (m : ByteMap) (start : Bytes) : List (Bytes × Bytes) :=
  (m[start...*].iter.takeWhile fun entry => start.isPrefixOf entry.1).toList

end ByteMap

end ProgramGraph
