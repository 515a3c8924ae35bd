import Std.Data.TreeSet
import ProgramGraph.Delta.Selector
import ProgramGraph.Graph.Basic

set_option autoImplicit false

/-! # Change sets

The difference of two graphs, and its application to a graph. A change set is applied in a
fixed order, so that no edge dangles on the way: edges go, nodes go, nodes come, edges come.
-/

namespace ProgramGraph

/-- A set of changes to nodes and edges. -/
structure Delta where
  addedNodes : List Node
  updatedNodes : List Node
  deletedNodes : Std.TreeSet String
  addedEdges : List Edge
  deletedEdges : Std.TreeSet EdgeSelector
  deriving Inhabited

namespace Delta

/-- No change. -/
def empty : Delta := ⟨[], [], ∅, [], ∅⟩

/-- The node is new with respect to a graph. -/
def isNew (old : Graph) (n : Node) : Bool := (old.node? n.id).isNone

/-- The node was there before, with other content. -/
def isChanged (old : Graph) (n : Node) : Bool :=
  (old.node? n.id).any fun before => !before.sameContent n

/-- What leads from one graph to another. Nodes are told apart by identifier and compared by
content; edges are compared by key alone. -/
def between (old new : Graph) : Delta where
  addedNodes := new.nodeList.filter (isNew old)
  updatedNodes := new.nodeList.filter (isChanged old)
  deletedNodes :=
    .ofList ((old.nodeList.filter fun n => !new.hasNode n.id).map Node.id)
  addedEdges := new.edgeList.filter fun e => !old.hasEdge e.key
  deletedEdges :=
    .ofList (((old.edgeList.map Edge.key).filter (!new.hasEdge ·)).map EdgeSelector.exact)

/-- What removes every node and edge of a graph. -/
def removing (g : Graph) : Delta where
  addedNodes := []
  updatedNodes := []
  deletedNodes := .ofList (g.nodeList.map Node.id)
  addedEdges := []
  deletedEdges := .ofList (g.edgeList.map fun e => EdgeSelector.exact e.key)

/-! ## Single changes -/

/-- Notes that a node comes. -/
def addNode (d : Delta) (n : Node) : Delta := { d with addedNodes := d.addedNodes ++ [n] }

/-- Notes that a node is replaced. -/
def updateNode (d : Delta) (n : Node) : Delta := { d with updatedNodes := d.updatedNodes ++ [n] }

/-- Notes that a node goes. -/
def deleteNode (d : Delta) (id : String) : Delta :=
  { d with deletedNodes := d.deletedNodes.insert id }

/-- Notes that an edge comes. -/
def addEdge (d : Delta) (e : Edge) : Delta := { d with addedEdges := d.addedEdges ++ [e] }

/-- Notes that the selected edges go. -/
def deleteEdge (d : Delta) (s : EdgeSelector) : Delta :=
  { d with deletedEdges := d.deletedEdges.insert s }

/-! ## The whole -/

/-- The number of changes. -/
def count (d : Delta) : Nat :=
  d.addedNodes.length + d.updatedNodes.length + d.deletedNodes.size + d.addedEdges.length +
    d.deletedEdges.size

/-- The change set changes nothing. -/
def isEmpty (d : Delta) : Bool :=
  d.addedNodes.isEmpty && d.updatedNodes.isEmpty && d.deletedNodes.isEmpty &&
    d.addedEdges.isEmpty && d.deletedEdges.isEmpty

/-- The nodes that come, in the order in which they are put in. -/
def incomingNodes (d : Delta) : List Node := d.addedNodes ++ d.updatedNodes

/-- Removes what a selector selects. -/
def removeSelected (g : Graph) (s : EdgeSelector) : Graph :=
  match s.kind with
  | some kind => g.removeEdge ⟨s.source, s.target, kind⟩
  | none => g.removeEdgesBetween s.source s.target

/-- The graph after the changes. An added edge with a missing end is left out. -/
def applyTo (d : Delta) (g : Graph) : Graph :=
  let pruned := d.deletedNodes.toList.foldl Graph.removeNode
    (d.deletedEdges.toList.foldl removeSelected g)
  d.addedEdges.foldl Graph.attach (pruned.addNodes d.incomingNodes)

/-- The numbers of changes in words. -/
def display (d : Delta) : String :=
  "+" ++ toString d.addedNodes.length ++ " ~" ++ toString d.updatedNodes.length ++ " -" ++
    toString d.deletedNodes.size ++ " nodes, +" ++ toString d.addedEdges.length ++ " -" ++
    toString d.deletedEdges.size ++ " edges"

end Delta

end ProgramGraph
