import ProgramGraph.Node.Basic
import ProgramGraph.Property.Wire

set_option autoImplicit false

/-! # Node records

On the wire a node is a flat record: its identifier, its kind, and core and extra properties
in one map.
-/

namespace ProgramGraph

open ProgramGraph.Wire

/-- The flat form of a node. -/
structure NodeRecord where
  id : String
  kind : NodeKind
  properties : Properties
  deriving Inhabited

namespace NodeRecord

/-- The record as a map. -/
def toWire (r : NodeRecord) : Value :=
  .map [(.name "id", .text r.id), (.name "type", .text r.kind.name),
    (.name "properties", r.properties.toWire)]

/-- Reads a record; the properties may be left out. -/
def ofWire? (encoding : Encoding) (v : Value) : Option NodeRecord := do
  let m ← v.members? [["id"], ["type"], ["properties"]]
  let id ← m.required "id" Value.text?
  let kind ← m.required "type" (Value.case? encoding NodeKind.named)
  let properties ← m.orElse "properties" Properties.ofWire? ∅
  pure ⟨id, kind, properties⟩

end NodeRecord

namespace Node

/-- The flat form of a node. -/
def record (n : Node) : NodeRecord := ⟨n.id, n.kind, n.properties⟩

/-- The node with a flat form. It fails if a property that the core owns has the wrong
shape. -/
def ofRecord (r : NodeRecord) : Outcome Node :=
  Node.ofProperties r.id r.id r.kind r.properties

/-- The node on the wire. -/
def toWire (n : Node) : Value := n.record.toWire

/-- The node that a value on the wire denotes. -/
def ofWire? (encoding : Encoding) (v : Value) : Option Node :=
  (NodeRecord.ofWire? encoding v).bind fun r => (ofRecord r).toOption

end Node

end ProgramGraph
