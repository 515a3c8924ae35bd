import ProgramGraph.Delta.Basic
import ProgramGraph.Edge.Record
import ProgramGraph.Node.Record

set_option autoImplicit false

/-! # Change sets on the wire

A change set is a map of its five parts, none of which may be left out. A star stands for the
relation of a selector that selects every edge between two nodes.
-/

namespace ProgramGraph

open ProgramGraph.Wire

namespace EdgeSelector

/-- The selector as a map. -/
def toWire (s : EdgeSelector) : Value :=
  .map [(.name "source", .text s.source), (.name "target", .text s.target),
    (.name "type", .text s.kindName)]

/-- Reads the relation of a selector: a star, or a name in any case of letters. -/
def kindOfWire? (v : Value) : Option (Option EdgeKind) := do
  let name ← v.text?
  if name = "*" then pure none else (EdgeKind.ofText? name).map some

/-- Reads a selector. -/
def ofWire? (v : Value) : Option EdgeSelector := do
  let m ← v.members? [["source"], ["target"], ["type"]]
  let source ← m.required "source" Value.text?
  let target ← m.required "target" Value.text?
  let kind ← m.required "type" kindOfWire?
  pure ⟨source, target, kind⟩

end EdgeSelector

namespace Delta

/-- The change set as a map. -/
def toWire (d : Delta) : Value :=
  .map
    [(.name "added_nodes", .list (d.addedNodes.map Node.toWire)),
      (.name "updated_nodes", .list (d.updatedNodes.map Node.toWire)),
      (.name "deleted_nodes", .list (d.deletedNodes.toList.map .text)),
      (.name "added_edges", .list (d.addedEdges.map Edge.toWire)),
      (.name "deleted_edges", .list (d.deletedEdges.toList.map EdgeSelector.toWire))]

/-- Reads a change set. -/
def ofWire? (v : Value) : Option Delta := do
  let m ← v.members? [["added_nodes"], ["updated_nodes"], ["deleted_nodes"], ["added_edges"],
    ["deleted_edges"]]
  let addedNodes ← m.required "added_nodes" (Value.list? (Node.ofWire? .named))
  let updatedNodes ← m.required "updated_nodes" (Value.list? (Node.ofWire? .named))
  let deletedNodes ← m.required "deleted_nodes" (Value.list? Value.text?)
  let addedEdges ← m.required "added_edges" (Value.list? (Edge.ofWire? .named))
  let deletedEdges ← m.required "deleted_edges" (Value.list? EdgeSelector.ofWire?)
  pure ⟨addedNodes, updatedNodes, .ofList deletedNodes, addedEdges, .ofList deletedEdges⟩

/-- The change set with what it comes to, for a reader. -/
def summary (d : Delta) : Value :=
  .map
    [(.name "display", .text d.display), (.name "count", .integer d.count),
      (.name "empty", .bool d.isEmpty), (.name "delta", d.toWire),
      (.name "selectors", .list (d.deletedEdges.toList.map fun s => .text s.display))]

end Delta

end ProgramGraph
