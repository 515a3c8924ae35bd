import ProgramGraph.Store.Basic

set_option autoImplicit false

/-! # What a store holds of a file

The fragment of a file is what a store holds of it: the node of the file, the nodes that the
file owns, the edges that leave them, and the targets of these edges. A node is owned by the
file that its identifier names.
-/

namespace ProgramGraph

/-- The node belongs to the file at a path: it is the file itself, or its identifier is that of
an entity of the file. -/
def Node.isOwnedBy (n : Node) (path : String) : Bool :=
  match n.kind with
  | .file => n.qualifiedName == path
  | kind => n.id == nodeId kind n.qualifiedName (some path)

namespace Store

/-- Adds the edges of a node and their targets to a fragment. The owned nodes among the new
targets are put on top of the nodes still to do. A missing target is passed over together
with its edge. -/
def addEdgesOf (s : Store) (path : String) :
    Graph × List String → List Edge → Outcome (Graph × List String)
  | acc, [] => .ok acc
  | (g, todo), e :: rest => do
      if g.hasNode e.target then
        s.addEdgesOf path (← g.addEdge e, todo) rest
      else
        match ← s.node? e.target with
        | none => s.addEdgesOf path (g, todo) rest
        | some target =>
            let todo := if target.isOwnedBy path then target.id :: todo else todo
            s.addEdgesOf path (← (g.addNode target).addEdge e, todo) rest

/-- Adds the edges of the nodes still to do, and of the owned nodes found on the way. -/
def growFragment (s : Store) (path : String) : Nat → Graph × List String → Outcome Graph
  | 0, (g, _) => .ok g
  | _, (g, []) => .ok g
  | steps + 1, (g, id :: todo) => do
      let edges ← s.edgesFrom id none none
      s.growFragment path steps (← s.addEdgesOf path (g, todo) edges)

/-- The fragment of the file at a path. Every owned node is found along an edge of its own,
which bounds the steps. -/
def fragment (s : Store) (path : String) : Outcome Graph := do
  let id := nodeId .file path none
  match ← s.node? id with
  | none => pure ∅
  | some n => s.growFragment path (s.edgeBound + 1) ((∅ : Graph).addNode n, [id])

end Store

end ProgramGraph
