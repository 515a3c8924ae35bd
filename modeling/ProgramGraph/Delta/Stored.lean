import ProgramGraph.Delta.Basic
import ProgramGraph.Store.Action

set_option autoImplicit false

/-! # Change sets on stores

A change set is applied to a store in the same order as to a graph. A store does not look at
the ends of an edge, so every added edge is saved. Without a transaction around it, a failure
leaves the changes before it in place.
-/

namespace ProgramGraph.Delta

/-- The operations that make the changes, in their order. -/
def operations (d : Delta) : List Store.Operation :=
  d.deletedEdges.toList.map (fun s => .deleteEdge s.source s.target s.kind) ++
    d.deletedNodes.toList.map .deleteNode ++ d.incomingNodes.map .saveNode ++
    d.addedEdges.map .saveEdge

/-- Makes the changes in a store. -/
def store (d : Delta) : Action Unit := d.operations.forM Action.perform

end ProgramGraph.Delta
