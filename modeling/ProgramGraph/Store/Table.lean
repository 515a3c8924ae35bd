import ProgramGraph.Settings.Store
import ProgramGraph.Store.Chunk
import ProgramGraph.Store.Rows
import ProgramGraph.Store.Statement
import ProgramGraph.Store.Statistics

set_option autoImplicit false

/-! # The table store

A store of rows. Every change takes effect at once; a transaction keeps the rows as they were
at its beginning, and an undone transaction puts them back. Every operation works by statements,
which come first: they fail if the file of the database is in trouble, and then nothing changes.
-/

namespace ProgramGraph

/-- A store of rows. -/
structure Table where
  settings : TableSettings
  rows : Rows
  /-- The rows at the beginning of the open transaction, if one is open. -/
  saved : Option Rows
  /-- The state of the file that the rows are kept in. -/
  state : DatabaseState
  deriving Inhabited

namespace Table

/-- The store over some rows, with no transaction open. -/
def ofRows (settings : TableSettings) (rows : Rows) : Table := 
  ⟨settings, rows, none, .sound⟩

/-- The store without rows. -/
def empty : Table := ofRows .inMemory .empty

/-- Changes the rows. -/
def change (t : Table) (f : Rows → Rows) : Table := { t with rows := f t.rows }

/-! ## Transactions -/

/-- A transaction is open. -/
def isOpen (t : Table) : Bool := t.saved.isSome

/-- Enters a transaction; one inside another does not begin anew. -/
def enterScope (t : Table) : Table := { t with saved := t.saved.or (some t.rows) }

theorem enterScope_of_isOpen {t : Table} (h : t.isOpen = true) : t.enterScope = t := by
  obtain ⟨settings, rows, _ | saved, state⟩ := t
  · simp [isOpen] at h
  · rfl

/-- Ends the transaction and keeps its changes. -/
def commit (t : Table) : Table := { t with saved := none }

/-- Ends the transaction and undoes its changes. -/
def rollback (t : Table) : Table := { t with rows := t.saved.getD t.rows, saved := none }

/-! ## Writing -/

/-- Saves a node in place of one with the same identifier. -/
def saveNode (t : Table) (n : Node) : Outcome Table := do
  Statement.insertNodes.write t.state true
  pure (t.change fun rows => rows.putNode n)

/-- Saves an edge unless there is one with the same key. -/
def saveEdge (t : Table) (e : Edge) : Outcome Table := do
  Statement.insertEdges.write t.state true
  pure (t.change fun rows => rows.putEdge e)

/-- Enters records by one statement, one after the other. Without records there is no statement. -/
def insertAtOnce {α : Type} (statement : Statement) (put : Rows → α → Rows) (t : Table)
    (records : List α) : Outcome Table := do
  if records.isEmpty then
    pure t
  else
    statement.write t.state true
    pure (t.change fun rows => records.foldl put rows)

/-- Enters records that take so many parameters each, by as few statements as the parameters
allow. -/
def insertAll {α : Type} (statement : Statement) (columns : UInt64) (put : Rows → α → Rows)
    (t : Table) (records : List α) : Outcome Table :=
  (chunks (Statement.parameterLimit / columns) records).foldlM (insertAtOnce statement put) t

/-- Enters nodes, each with its identifier, its kind and its properties. -/
def insertNodes : Table → List Node → Outcome Table :=
  insertAll Statement.insertNodes 3 Rows.putNode

/-- Enters edges, each with its two ends, its relation and its properties. -/
def insertEdges : Table → List Edge → Outcome Table :=
  insertAll Statement.insertEdges 4 Rows.putEdge

/-- Saves the nodes and edges of a graph, a batch at a time: as many records as are asked for,
or as many as the settings say. -/
def saveGraph (t : Table) (g : Graph) (batchSize : Option UInt64) : Outcome Table := do
  let batch := batchSize.getD t.settings.batchSize
  let withNodes ← (chunks batch g.nodeList).foldlM insertNodes t
  (chunks batch g.edgeList).foldlM insertEdges withNodes

/-- Deletes a node and the edges that touch it. -/
def deleteNode (t : Table) (id : String) : Outcome Table := do
  Statement.deleteTouching.write t.state
    (t.rows.hasEdge fun key => key.source = id || key.target = id)
  Statement.deleteNode.write t.state (t.rows.nodes.contains id)
  pure (t.change fun rows => rows.removeNode id)

/-- Deletes the edges between two nodes, of one relation or of all. -/
def deleteEdge (t : Table) (source target : String) (kind : Option EdgeKind) : Outcome Table := do
  (Statement.deleteBetween kind).write t.state (t.rows.hasEdge fun key =>
    key.source = source && key.target = target && kind.all fun k => key.kind = k)
  pure (t.change fun rows => rows.removeBetween source target kind)

/-- Deletes everything. -/
def clear (t : Table) : Outcome Table := do
  Statement.deleteEdges.write t.state true
  pure (t.change Rows.clear)

/-! ## Reading -/

/-- The node with an identifier, if it is stored. -/
def node? (t : Table) (id : String) : Outcome (Option Node) := do
  Statement.readNode.read t.state
  t.rows.node? id

/-- The node with an identifier. -/
def node (t : Table) (id : String) : Outcome Node := do
  match ← t.node? id with
  | some n => pure n
  | none => .error (.nodeMissing id)

/-- The node is stored. -/
def hasNode (t : Table) (id : String) : Outcome Bool := do
  Statement.findNode.read t.state
  pure (t.rows.nodes.contains id)

/-- The edges that leave a node, narrowed to a target and to a relation where given. -/
def edgesFrom (t : Table) (source : String) (target : Option String) (kind : Option EdgeKind) :
    Outcome (List Edge) := do
  let narrowing := target.toList.map (fun _ => "target") ++ kind.toList.map fun _ => "type"
  (Statement.readEdges ("source" :: narrowing)).read t.state
  t.rows.edgesFrom source target kind

/-- The edges that reach a node, narrowed to a relation where given. -/
def edgesTo (t : Table) (target : String) (kind : Option EdgeKind) : Outcome (List Edge) := do
  (Statement.readEdges ("target" :: kind.toList.map fun _ => "type")).read t.state
  t.rows.edgesTo target kind

/-- One page of the nodes of a kind, or of all nodes, that a filter accepts, by identifier. -/
def findNodes (t : Table) (kind : Option NodeKind) (filter : Filter) (limit : Option Nat)
    (offset : Nat) : Outcome (List Node) := do
  if limit ≠ some 0 then
    Statement.queryNodes.read t.state
  Rows.page filter limit offset (t.rows.nodeRows kind)

/-- The graph that a root reaches within a depth. The database takes the depth as a signed word:
one that does not fit is negative, and no round begins below it. -/
def loadGraph (t : Table) (root : String) (maxDepth : UInt64) : Outcome Graph := do
  Statement.load.read t.state
  let (nodes, edges) ← t.rows.reached root maxDepth.toInt64.toInt.toNat
  Graph.ofFound root nodes edges

/-- The number of nodes, of one kind or of all. -/
def nodeCount (t : Table) (kind : Option NodeKind) : Outcome Nat := do
  (Statement.count "nodes" kind).read t.state
  pure (t.rows.nodeCount kind)

/-- The number of edges, of one relation or of all. -/
def edgeCount (t : Table) (kind : Option EdgeKind) : Outcome Nat := do
  (Statement.count "edges" kind).read t.state
  pure (t.rows.edgeCount kind)

/-- Totals and counts. -/
def statistics (t : Table) : Outcome Statistics := do
  (Statement.countByKind "nodes").read t.state
  pure
    { backend := "sqlite"
      nodeCount := t.rows.nodeCount none
      edgeCount := t.rows.edgeCount none
      nodesByKind := Statistics.occurring (fun kind => t.rows.nodeCount (some kind)) NodeKind.all
      edgesByKind := Statistics.occurring (fun kind => t.rows.edgeCount (some kind)) EdgeKind.all }

end Table

end ProgramGraph
