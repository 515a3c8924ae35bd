import ProgramGraph.Edge.Basic
import ProgramGraph.Property.Wire

set_option autoImplicit false

/-! # Edge records

On the wire an edge is a flat record: its ends, its relation, and core and extra properties in
one map.
-/

namespace ProgramGraph

open ProgramGraph.Wire

/-- The flat form of an edge. -/
structure EdgeRecord where
  source : String
  target : String
  kind : EdgeKind
  properties : Properties
  deriving Inhabited

namespace EdgeRecord

/-- The record as a map. -/
def toWire (r : EdgeRecord) : Value :=
  .map [(.name "source", .text r.source), (.name "target", .text r.target),
    (.name "type", .text r.kind.name), (.name "properties", r.properties.toWire)]

/-- Reads a record; the properties may be left out. -/
def ofWire? (encoding : Encoding) (v : Value) : Option EdgeRecord := do
  let m ← v.members? [["source"], ["target"], ["type"], ["properties"]]
  let source ← m.required "source" Value.text?
  let target ← m.required "target" Value.text?
  let kind ← m.required "type" (Value.case? encoding EdgeKind.named)
  let properties ← m.orElse "properties" Properties.ofWire? ∅
  pure ⟨source, target, kind, properties⟩

end EdgeRecord

namespace Edge

/-- The flat form of an edge. -/
def record (e : Edge) : EdgeRecord := ⟨e.source, e.target, e.kind, e.properties⟩

/-- The edge with a flat form. It fails if a property that the core owns has the wrong
shape. -/
def ofRecord (r : EdgeRecord) : Outcome Edge :=
  Edge.ofProperties r.source r.target r.kind r.properties

/-- The edge on the wire. -/
def toWire (e : Edge) : Value := e.record.toWire

/-- The edge that a value on the wire denotes. -/
def ofWire? (encoding : Encoding) (v : Value) : Option Edge :=
  (EdgeRecord.ofWire? encoding v).bind fun r => (ofRecord r).toOption

end Edge

end ProgramGraph
