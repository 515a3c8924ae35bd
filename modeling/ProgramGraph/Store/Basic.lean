import ProgramGraph.Store.Keyed
import ProgramGraph.Store.Table

set_option autoImplicit false

/-! # Stores

A store keeps nodes and edges, either as rows or as entries of a byte map. Both kinds have the
same operations; where they differ, in what a transaction shows to reading, in what becomes of
a second edge with one key and in the order of edges, each follows its own rules.
-/

namespace ProgramGraph

/-- A store of either kind. -/
inductive Store where
  | table (t : Table)
  | keyed (k : Keyed)
  deriving Inhabited

/-- How a graph is saved. -/
structure SaveOptions where
  life : Life
  /-- How many records are written at once; without a value, as many as the settings say. -/
  batchSize : Option UInt64
  deriving DecidableEq

/-- A graph is saved as the settings of the store say. -/
def SaveOptions.standard : SaveOptions := ⟨.standard, none⟩

namespace Store

/-! ## Transactions -/

/-- A transaction is open. -/
def isOpen : Store → Bool
  | .table t => t.isOpen
  | .keyed k => k.isOpen

/-- Enters a transaction. -/
def enterScope : Store → Store
  | .table t => .table t.enterScope
  | .keyed k => .keyed k.enterScope

/-- Leaves a transaction inside another. -/
def leaveScope : Store → Store
  | .table t => .table t
  | .keyed k => .keyed k.leaveScope

/-- Ends the outermost transaction well. -/
def commit : Store → Store
  | .table t => .table t.commit
  | .keyed k => .keyed k.commit

/-- Ends the outermost transaction without effect. -/
def rollback : Store → Store
  | .table t => .table t.rollback
  | .keyed k => .keyed k.leaveScope

/-! ## Reading -/

/-- The node with an identifier. -/
def node : Store → String → Outcome Node
  | .table t => t.node
  | .keyed k => k.node

/-- The node with an identifier, if it is stored. -/
def node? : Store → String → Outcome (Option Node)
  | .table t => t.node?
  | .keyed k => k.node?

/-- The node is stored. -/
def hasNode (s : Store) (id : String) : Outcome Bool :=
  match s with
  | .table t => t.hasNode id
  | .keyed k => .ok (k.hasNode id)

/-- One page of the nodes of a kind, or of all nodes, that a filter accepts, by identifier. -/
def findNodes (s : Store) (kind : Option NodeKind) (filter : Filter) (limit : Option Nat)
    (offset : Nat) : Outcome (List Node) :=
  match s with
  | .table t => t.findNodes kind filter limit offset
  | .keyed k => k.findNodes kind filter limit offset

/-- The edges that leave a node, narrowed to a target and to a relation where given. -/
def edgesFrom (s : Store) (source : String) (target : Option String) (kind : Option EdgeKind) :
    Outcome (List Edge) :=
  match s with
  | .table t => t.edgesFrom source target kind
  | .keyed k => k.edgesFrom source target kind

/-- The edges that reach a node, narrowed to a relation where given. -/
def edgesTo (s : Store) (target : String) (kind : Option EdgeKind) : Outcome (List Edge) :=
  match s with
  | .table t => t.edgesTo target kind
  | .keyed k => k.edgesTo target kind

/-- The number of nodes, of one kind or of all. -/
def nodeCount (s : Store) (kind : Option NodeKind) : Outcome Nat :=
  match s with
  | .table t => t.nodeCount kind
  | .keyed k => .ok (k.nodeCount kind)

/-- The number of edges, of one relation or of all. -/
def edgeCount (s : Store) (kind : Option EdgeKind) : Outcome Nat :=
  match s with
  | .table t => t.edgeCount kind
  | .keyed k => .ok (k.edgeCount kind)

/-- The graph that a root reaches within a depth. -/
def loadGraph (s : Store) (root : String) (maxDepth : UInt64) : Outcome Graph :=
  match s with
  | .table t => t.loadGraph root maxDepth
  | .keyed k => k.loadGraph root maxDepth

/-- Totals and counts. -/
def statistics : Store → Outcome Statistics
  | .table t => t.statistics
  | .keyed k => .ok k.statistics

/-- A number that no store has more edges than. -/
def edgeBound : Store → Nat
  | .table t => t.rows.edges.size
  | .keyed k => k.reader.edgeBound

/-! ## Writing -/

/-- Saves a node in place of one with the same identifier. -/
def saveNode (s : Store) (n : Node) : Outcome Store :=
  match s with
  | .table t => (t.saveNode n).map .table
  | .keyed k => .ok (.keyed (k.saveNode n))

/-- Saves an edge. -/
def saveEdge (s : Store) (e : Edge) : Outcome Store :=
  match s with
  | .table t => (t.saveEdge e).map .table
  | .keyed k => .ok (.keyed (k.saveEdge e))

/-- Saves the nodes and edges of a graph, all or nothing. -/
def saveGraph (s : Store) (g : Graph) (options : SaveOptions) : Outcome Store :=
  match s with
  | .table t => (t.saveGraph g options.batchSize).map .table
  | .keyed k => .ok (.keyed (k.saveGraph g options.life))

/-- Deletes a node and the edges that leave it. -/
def deleteNode (s : Store) (id : String) : Outcome Store :=
  match s with
  | .table t => (t.deleteNode id).map .table
  | .keyed k => (k.deleteNode id).map .keyed

/-- Deletes the edges between two nodes, of one relation or of all. -/
def deleteEdge (s : Store) (source target : String) (kind : Option EdgeKind) : Outcome Store :=
  match s with
  | .table t => (t.deleteEdge source target kind).map .table
  | .keyed k => (k.deleteEdge source target kind).map .keyed

/-- Deletes everything. -/
def clear (s : Store) : Outcome Store :=
  match s with
  | .table t => t.clear.map .table
  | .keyed k => .ok (.keyed k.clear)

end Store

end ProgramGraph
