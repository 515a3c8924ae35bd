import Std.Data.TreeSet
import ProgramGraph.Graph.Traversal

set_option autoImplicit false

/-! # Loading what a root reaches

Part of a stored graph is loaded along outgoing edges, up to a depth. A target that is not stored
is passed over. The edges of every loaded node are read, and those whose ends are both loaded
belong to the result.

Where records are read one by one, a queue holds the identifiers still to be read, and none joins
it twice. A table store has its database search in rounds instead (`Rows.rounds`).
-/

namespace ProgramGraph

/-- The graph of the nodes and edges that a load from a root has found. An edge with an end that
was not found is left out. -/
def Graph.ofFound (root : String) (nodes : List Node) (edges : List Edge) : Outcome Graph :=
  if nodes.isEmpty then .error (.nodeMissing root)
  else pure (edges.foldl Graph.attach ((∅ : Graph).addNodes nodes))

/-- How the records of a store are read. -/
structure RecordReader where
  /-- The node with an identifier, if it is stored. -/
  node? : String → Outcome (Option Node)
  /-- The edges that leave a node, in the order of the store. -/
  edgesFrom : String → Outcome (List Edge)
  /-- No store holds more edges than this. -/
  edgeBound : Nat

namespace RecordReader

/-- The targets of a node that are not met before, if the depth of the node allows to go on, and
what has been met with them. -/
def joining (maxDepth depth : Nat) (seen : Std.TreeSet String) (targets : List String) :
    List String × Std.TreeSet String :=
  if depth < maxDepth then Graph.discover seen targets else ([], seen)

/-- Reads the nodes of a queue in order, with their edges. What joins the queue joins it at its
end, one level deeper. -/
def collect (reader : RecordReader) (maxDepth : Nat) :
    Nat → List (String × Nat) → Std.TreeSet String → Outcome (List Node × List Edge)
  | 0, _, _ => .ok ([], [])
  | _, [], _ => .ok ([], [])
  | steps + 1, (id, depth) :: queue, seen => do
      match ← reader.node? id with
      | none => reader.collect maxDepth steps queue seen
      | some n =>
          let edges ← reader.edgesFrom id
          let (fresh, after) := joining maxDepth depth seen (edges.map Edge.target)
          let (nodes, further) ←
            reader.collect maxDepth steps (queue ++ fresh.map (·, depth + 1)) after
          pure (n :: nodes, edges ++ further)

/-- The graph that a root reaches within a depth. -/
def load (reader : RecordReader) (root : String) (maxDepth : Nat) : Outcome Graph := do
  let (nodes, edges) ← reader.collect maxDepth (reader.edgeBound + 1) [(root, 0)]
    ((∅ : Std.TreeSet String).insert root)
  Graph.ofFound root nodes edges

end RecordReader

end ProgramGraph
