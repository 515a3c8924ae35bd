import Std.Data.TreeMap
import ProgramGraph.Edge.Record
import ProgramGraph.Graph.Basic
import ProgramGraph.Json.Parser
import ProgramGraph.Node.Record
import ProgramGraph.Store.Narrowing
import ProgramGraph.Store.Reach

set_option autoImplicit false

/-! # Rows of nodes and edges

What a table store holds: a row for each node and a row for each edge, with the properties as
JSON text. A node row is replaced by a later one with the same identifier; of several edge
rows with one key the first stays. Edge rows are numbered in the order of their insertion.
-/

namespace ProgramGraph

open ProgramGraph.Wire

/-- A stored node, but for its identifier. -/
structure NodeRow where
  kind : NodeKind
  /-- The properties in JSON. -/
  properties : String
  deriving Repr, DecidableEq

/-- A stored edge, but for its key. -/
structure EdgeRow where
  /-- The number of the insertion. -/
  sequence : Nat
  /-- The properties in JSON. -/
  properties : String
  deriving Repr, DecidableEq

/-- The properties that a row holds. -/
def readProperties (written : String) : Outcome Properties :=
  match (Json.parse? written).bind Properties.ofWire? with
  | some props => .ok props
  | none => .error (.undecodable .properties)

/-- The row of a node. -/
def NodeRow.ofNode (n : Node) : NodeRow := ⟨n.kind, Json.print n.properties.toWire⟩

/-- The node of a row. -/
def NodeRow.toNode (id : String) (row : NodeRow) : Outcome Node := do
  Node.ofRecord ⟨id, row.kind, ← readProperties row.properties⟩

/-- The edge of a row. -/
def EdgeRow.toEdge (key : EdgeKey) (row : EdgeRow) : Outcome Edge := do
  Edge.ofRecord ⟨key.source, key.target, key.kind, ← readProperties row.properties⟩

/-- The rows of a table store. -/
structure Rows where
  nodes : Std.TreeMap String NodeRow
  edges : Std.TreeMap EdgeKey EdgeRow
  /-- The number of the next inserted edge. -/
  next : Nat
  deriving Inhabited

namespace Rows

/-- No rows. -/
def empty : Rows := ⟨∅, ∅, 0⟩

/-! ## Writing -/

/-- Enters a node in place of one with the same identifier. -/
def putNode (rows : Rows) (n : Node) : Rows :=
  { rows with nodes := rows.nodes.insert n.id (.ofNode n) }

/-- Enters an edge unless there is one with the same key. -/
def putEdge (rows : Rows) (e : Edge) : Rows :=
  { rows with
    edges := rows.edges.insertIfNew e.key ⟨rows.next, Json.print e.properties.toWire⟩
    next := rows.next + 1 }

/-- Removes the edges whose key is selected. -/
def removeEdges (rows : Rows) (selected : EdgeKey → Bool) : Rows :=
  { rows with edges := rows.edges.filter fun key _ => !selected key }

/-- Removes a node and the edges that touch it. -/
def removeNode (rows : Rows) (id : String) : Rows :=
  let bare := rows.removeEdges fun key => key.source = id || key.target = id
  { bare with nodes := bare.nodes.erase id }

/-- Removes the edges between two nodes, of one relation or of all. -/
def removeBetween (rows : Rows) (source target : String) (kind : Option EdgeKind) : Rows :=
  match kind with
  | some k => { rows with edges := rows.edges.erase ⟨source, target, k⟩ }
  | none => rows.removeEdges fun key => key.source = source && key.target = target

/-- Removes every row; the numbering goes on. -/
def clear (rows : Rows) : Rows := { rows with nodes := ∅, edges := ∅ }

/-! ## Reading -/

/-- The node with an identifier, if there is a row. -/
def node? (rows : Rows) (id : String) : Outcome (Option Node) :=
  match rows.nodes[id]? with
  | some row => (row.toNode id).map some
  | none => .ok none

/-- There is an edge whose key is selected. -/
def hasEdge (rows : Rows) (selected : EdgeKey → Bool) : Bool :=
  rows.edges.any fun key _ => selected key

/-- The rows of the selected edges in the order of insertion. -/
def edgeRows (rows : Rows) (selected : EdgeKey → Bool) : List (EdgeKey × EdgeRow) :=
  let found := rows.edges.foldr
    (fun key row acc => if selected key then (key, row) :: acc else acc) []
  found.mergeSort fun a b => a.2.sequence ≤ b.2.sequence

/-- The edges of rows, in the order of the rows. -/
def toEdges (found : List (EdgeKey × EdgeRow)) : Outcome (List Edge) :=
  found.mapM fun (key, row) => row.toEdge key

/-- The selected edges in the order of insertion. -/
def edgesBy (rows : Rows) (selected : EdgeKey → Bool) : Outcome (List Edge) :=
  toEdges (rows.edgeRows selected)

/-- The edges that leave a node, narrowed to a target and to a relation where given. -/
def edgesFrom (rows : Rows) (source : String) (target : Option String)
    (kind : Option EdgeKind) : Outcome (List Edge) :=
  rows.edgesBy fun key =>
    key.source = source && (target.all fun t => key.target = t) && kind.all fun k => key.kind = k

/-- The edges that reach a node, narrowed to a relation where given. -/
def edgesTo (rows : Rows) (target : String) (kind : Option EdgeKind) : Outcome (List Edge) :=
  rows.edgesBy fun key => key.target = target && kind.all fun k => key.kind = k

/-- One page of the nodes that a filter accepts. Rows are read one after the other until the
page is full, and decoded if the filter admits them; `offset` accepted nodes are passed over
first. -/
def page (filter : Filter) :
    Option Nat → Nat → List (String × NodeRow) → Outcome (List Node)
  | some 0, _, _ => .ok []
  | _, _, [] => .ok []
  | limit, offset, (id, row) :: rest => do
      let props ← readProperties row.properties
      if ← filter.admits props then
        let n ← Node.ofRecord ⟨id, row.kind, props⟩
        if filter.accepts n then
          match offset with
          | skipped + 1 => page filter limit skipped rest
          | 0 => pure (n :: (← page filter (limit.map (· - 1)) 0 rest))
        else page filter limit offset rest
      else page filter limit offset rest

/-- The rows of the nodes of a kind, or of all nodes, by identifier. -/
def nodeRows (rows : Rows) (kind : Option NodeKind) : List (String × NodeRow) :=
  match kind with
  | some k => rows.nodes.toList.filter fun entry => entry.2.kind = k
  | none => rows.nodes.toList

/-- The number of nodes, of one kind or of all. -/
def nodeCount (rows : Rows) (kind : Option NodeKind) : Nat :=
  match kind with
  | some k => (rows.nodes.values.filter fun row => row.kind = k).length
  | none => rows.nodes.size

/-- The number of edges, of one relation or of all. -/
def edgeCount (rows : Rows) (kind : Option EdgeKind) : Nat :=
  match kind with
  | some k => (rows.edges.keys.filter fun key => key.kind = k).length
  | none => rows.edges.size

/-! ## What a root reaches -/

/-- The rows of the edges that leave a node, by target. Those with one target are in the order of
insertion, which sorting keeps. -/
def leaving (rows : Rows) (source : String) : List (EdgeKey × EdgeRow) :=
  (rows.edgeRows fun key => key.source = source).mergeSort fun a b => a.1.target ≤ b.1.target

/-- The stored nodes that the edges of some nodes lead to, each once. -/
def following (rows : Rows) (level : List String) : List String :=
  let targets := level.flatMap fun id => (rows.leaving id).map fun entry => entry.1.target
  (Graph.discover ∅ (targets.filter rows.nodes.contains)).1

/-- The nodes that are met in rounds, in the order in which they are met. A round goes from some
nodes to those that follow, also to such as an earlier round has met: what is found carries the
number of its round, so nothing of it repeats. On a cycle only the number of rounds is an end. -/
def rounds (rows : Rows) : Nat → List String → Array String → Std.TreeSet String → Array String
  | 0, level, met, seen => met ++ (Graph.discover seen level).1
  | steps + 1, level, met, seen =>
      let (fresh, after) := Graph.discover seen level
      if level.isEmpty then met
      else rows.rounds steps (rows.following level) (met ++ fresh) after

/-- The nodes that a root reaches within a number of rounds, with the edges that leave them. -/
def reached (rows : Rows) (root : String) (steps : Nat) : Outcome (List Node × List Edge) := do
  let ids := (rows.rounds steps ([root].filter rows.nodes.contains) #[] ∅).toList
  let found ← ids.mapM fun id => do
    pure (← rows.node? id, ← toEdges (rows.leaving id))
  pure (found.filterMap Prod.fst, found.flatMap Prod.snd)

end Rows

end ProgramGraph
