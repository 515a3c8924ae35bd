import ProgramGraph.Edge.Kind
import ProgramGraph.Node.Kind
import ProgramGraph.Wire.Value

set_option autoImplicit false

/-! # Statistics of a store

Totals, and the counts of the kinds and relations that occur.
-/

namespace ProgramGraph

open ProgramGraph.Wire

/-- Totals and counts by kind. -/
structure Statistics where
  /-- The name of the kind of store. -/
  backend : String
  nodeCount : Nat
  edgeCount : Nat
  /-- The kinds that occur, each with its number of nodes. -/
  nodesByKind : List (NodeKind × Nat)
  /-- The relations that occur, each with its number of edges. -/
  edgesByKind : List (EdgeKind × Nat)
  deriving Repr, DecidableEq

namespace Statistics

/-- The items that occur, each with its count. -/
def occurring {α : Type} (count : α → Nat) (items : List α) : List (α × Nat) :=
  (items.map fun a => (a, count a)).filter fun (_, n) => n ≠ 0

/-- The statistics as a map. -/
def toWire (s : Statistics) : Value :=
  .map
    [(.name "backend", .text s.backend), (.name "node_count", .integer s.nodeCount),
      (.name "edge_count", .integer s.edgeCount),
      (.name "nodes_by_type",
        .map (s.nodesByKind.map fun (kind, n) => (Key.name kind.name, .integer n))),
      (.name "edges_by_type",
        .map (s.edgesByKind.map fun (kind, n) => (Key.name kind.name, .integer n)))]

end Statistics

end ProgramGraph
