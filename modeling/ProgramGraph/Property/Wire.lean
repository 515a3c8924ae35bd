import ProgramGraph.Property.Value
import ProgramGraph.Wire.Value

set_option autoImplicit false

/-! # Properties on the wire

A property is the bare value of its kind: nothing in the encoding names the kind. An integer
beyond 63 bits therefore comes back as a float.
-/

namespace ProgramGraph

open ProgramGraph.Text ProgramGraph.Wire

namespace Property

/-- The value on the wire. -/
def toWire : Property → Value
  | .null => .null
  | .bool b => .bool b
  | .int n => .integer n.toInt
  | .float x => .float x
  | .text s => .text s
  | .texts items => .list (items.map .text)

/-- The property that a value on the wire denotes: maps, and lists of anything but texts,
denote none. -/
def ofWire? : Value → Option Property
  | .null => some .null
  | .bool b => some (.bool b)
  | .integer n | .signed n =>
      if n ≤ Int64.maxValue.toInt then some (.int (Int64.ofInt n))
      else some (.float (Value.floatOfInteger n))
  | .float x => some (.float x)
  | .text s => some (.text s)
  | .bytes content => (ofUtf8? content).map .text
  | .list items => (items.mapM Value.text?).map .texts
  | .map _ | .unreadable => none

/-- The name of the value's kind and the value in running text, which tell apart what looks
alike on the wire. -/
def described (p : Property) : Value := .list [.text p.kindName, .text p.display]

end Property

namespace Properties

/-- The properties as a map, in the order of the names. -/
def toWire (props : Properties) : Value :=
  .map (props.toList.map fun (key, value) => (Key.name key, value.toWire))

/-- The names with the described values, in the order of the names. -/
def described (props : Properties) : Value :=
  .list (props.toList.map fun (key, value) => .list [.text key, value.described])

/-- Reads properties; of a repeated name the last value counts. -/
def ofWire? (v : Value) : Option Properties :=
  (v.entries? Property.ofWire?).map fun entries =>
    entries.foldl (fun acc (key, value) => acc.insert key value) ∅

end Properties

end ProgramGraph
