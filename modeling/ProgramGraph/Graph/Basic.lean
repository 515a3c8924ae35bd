import Std.Data.TreeSet
import ProgramGraph.Edge.Basic
import ProgramGraph.Node.Basic

set_option autoImplicit false

/-! # Graphs

A graph holds nodes by identifier and edges by key, and for each node the keys of the edges
that leave it and of those that reach it. Both ends of every edge are nodes of the graph:
`addEdge` refuses any other edge, and `removeNode` takes the touching edges along.
-/

namespace ProgramGraph

/-- The way in which edges are followed. -/
inductive Direction where
  /-- From source to target. -/
  | outgoing
  /-- From target to source. -/
  | incoming
  deriving Repr, DecidableEq, Inhabited

/-- For each node the keys of its edges in one direction. -/
abbrev Adjacency := Std.TreeMap String (Std.TreeSet EdgeKey)

namespace Adjacency

/-- The keys at a node, in their order. -/
def keysAt (index : Adjacency) (id : String) : List EdgeKey :=
  match index[id]? with
  | some keys => keys.toList
  | none => []

/-- Enters a key at a node. -/
def link (index : Adjacency) (id : String) (key : EdgeKey) : Adjacency :=
  index.insert id ((index[id]?.getD ∅).insert key)

/-- Removes a key at a node. -/
def unlink (index : Adjacency) (id : String) (key : EdgeKey) : Adjacency :=
  match index[id]? with
  | some keys => index.insert id (keys.erase key)
  | none => index

end Adjacency

/-- Nodes and edges with their adjacency. -/
structure Graph where
  nodes : Std.TreeMap String Node
  edges : Std.TreeMap EdgeKey Edge
  /-- The edges that leave each node. -/
  outgoing : Adjacency
  /-- The edges that reach each node. -/
  incoming : Adjacency
  deriving Inhabited

namespace Graph

/-- The graph without nodes. -/
def empty : Graph := ⟨∅, ∅, ∅, ∅⟩

instance : EmptyCollection Graph := ⟨empty⟩

/-! ## Nodes -/

/-- Puts a node in, in place of one with the same identifier, whose edges stay. -/
def addNode (g : Graph) (n : Node) : Graph := { g with nodes := g.nodes.insert n.id n }

/-- The node with an identifier. -/
def node? (g : Graph) (id : String) : Option Node := g.nodes[id]?

/-- There is a node with the identifier. -/
def hasNode (g : Graph) (id : String) : Bool := g.nodes.contains id

/-- The nodes, by identifier. -/
def nodeList (g : Graph) : List Node := g.nodes.values

/-- The nodes of a kind, by identifier. -/
def nodesOfKind (g : Graph) (kind : NodeKind) : List Node :=
  g.nodeList.filter fun n => n.kind = kind

/-! ## Edges -/

/-- The edge with a key. -/
def edge? (g : Graph) (key : EdgeKey) : Option Edge := g.edges[key]?

/-- There is an edge with the key. -/
def hasEdge (g : Graph) (key : EdgeKey) : Bool := g.edges.contains key

/-- The edges, by key. -/
def edgeList (g : Graph) : List Edge := g.edges.values

/-- Puts an edge in, in place of one with the same key. Both ends must be nodes of the graph;
of two missing ends the source is reported. -/
def addEdge (g : Graph) (e : Edge) : Outcome Graph :=
  if !g.hasNode e.source then .error (.danglingEdge e.source e.target .source)
  else if !g.hasNode e.target then .error (.danglingEdge e.source e.target .target)
  else
    .ok { g with
      edges := g.edges.insert e.key e
      outgoing := g.outgoing.link e.source e.key
      incoming := g.incoming.link e.target e.key }

/-- Puts an edge in if both its ends are there. -/
def attach (g : Graph) (e : Edge) : Graph :=
  match g.addEdge e with
  | .ok g' => g'
  | .error _ => g

/-- Takes an edge out, if it is there. -/
def removeEdge (g : Graph) (key : EdgeKey) : Graph :=
  if g.hasEdge key then
    { g with
      edges := g.edges.erase key
      outgoing := g.outgoing.unlink key.source key
      incoming := g.incoming.unlink key.target key }
  else g

/-- The keys of the edges at a node in a direction. -/
def keysAt (g : Graph) (id : String) : Direction → List EdgeKey
  | .outgoing => g.outgoing.keysAt id
  | .incoming => g.incoming.keysAt id

/-- Takes out every edge from one node to another. -/
def removeEdgesBetween (g : Graph) (source target : String) : Graph :=
  ((g.keysAt source .outgoing).filter fun key => key.target = target).foldl removeEdge g

/-- Takes a node out together with the edges that touch it. -/
def removeNode (g : Graph) (id : String) : Graph :=
  if g.hasNode id then
    let touching := g.keysAt id .outgoing ++ g.keysAt id .incoming
    let bare := { g with
      nodes := g.nodes.erase id
      outgoing := g.outgoing.erase id
      incoming := g.incoming.erase id }
    touching.foldl removeEdge bare
  else g

/-- The edges at a node in a direction, by key. -/
def adjacent (g : Graph) (id : String) (direction : Direction) : List Edge :=
  (g.keysAt id direction).filterMap g.edge?

/-- An edge passes a filter that may name a relation. -/
def matchesKind (kind : Option EdgeKind) (e : Edge) : Bool := kind.all fun k => e.kind = k

/-- The edges that leave a node, narrowed to a target and to a relation where given. -/
def edgesFrom (g : Graph) (source : String) (target : Option String) (kind : Option EdgeKind) :
    List Edge :=
  (g.adjacent source .outgoing).filter fun e =>
    (target.all fun t => e.target = t) && matchesKind kind e

/-- The edges that reach a node, narrowed to a relation where given. -/
def edgesTo (g : Graph) (target : String) (kind : Option EdgeKind) : List Edge :=
  (g.adjacent target .incoming).filter (matchesKind kind)

/-- The far ends of the edges at a node, narrowed to some relations where given. A node that
several edges reach occurs as often. Keys are ordered by source and then by target, so the
result ascends. -/
def neighbors (g : Graph) (id : String) (direction : Direction)
    (kinds : Option (List EdgeKind)) : List String :=
  ((g.adjacent id direction).filter fun e => kinds.all fun ks => ks.contains e.kind).map fun e =>
    match direction with
    | .outgoing => e.target
    | .incoming => e.source

/-! ## Whole graphs -/

/-- Puts nodes in, one after the other. -/
def addNodes (g : Graph) (nodes : List Node) : Graph := nodes.foldl addNode g

/-- Puts edges in, one after the other; it ends with the first that is refused. -/
def addEdges (g : Graph) (edges : List Edge) : Outcome Graph := edges.foldlM addEdge g

/-- The graph of the given nodes and edges. -/
def ofLists (nodes : List Node) (edges : List Edge) : Outcome Graph :=
  ((∅ : Graph).addNodes nodes).addEdges edges

/-- Adds the nodes and edges of another graph; where both have one, that of `other` stays. -/
def merge (g other : Graph) : Outcome Graph :=
  (g.addNodes other.nodeList).addEdges other.edgeList

end Graph

end ProgramGraph
