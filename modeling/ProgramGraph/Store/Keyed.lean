import ProgramGraph.Edge.Record
import ProgramGraph.Node.Record
import ProgramGraph.Settings.Store
import ProgramGraph.Store.ByteMap
import ProgramGraph.Store.Envelope
import ProgramGraph.Store.Filter
import ProgramGraph.Store.Layout
import ProgramGraph.Store.Reach
import ProgramGraph.Store.Statistics

set_option autoImplicit false

/-! # The keyed store

A store over a byte map. Nodes and edges are entries in the binary encoding under the keys of
`KeyLayout`; every entry may expire. Inside a transaction changes are only collected, and all
reading sees the map as it was before, also the reading that a change needs to find out what
to delete. Transactions inside one another are counted and collect together. The collected
changes are made when the outermost transaction ends well, in their order.
-/

namespace ProgramGraph

open ProgramGraph.Text ProgramGraph.Wire

/-- How long what is saved shall live. -/
inductive Life where
  /-- As long as the settings of the store say. -/
  | standard
  | forever
  | span (d : Duration)
  deriving DecidableEq

/-- A store over a byte map. -/
structure Keyed where
  settings : KeyedSettings
  /-- What is stored. -/
  entries : ByteMap
  /-- The number of open transactions, one inside the other. -/
  depth : Nat
  /-- The changes collected in the open transactions. -/
  collected : Array ByteWrite
  /-- The present moment, in milliseconds. -/
  now : UInt64
  deriving Inhabited

namespace Keyed

/-- The store over a byte map, with no transaction open. -/
def ofEntries (settings : KeyedSettings) (entries : ByteMap) (now : UInt64) : Keyed :=
  ⟨settings, entries, 0, #[], now⟩

/-- The keys of the store. -/
def layout (s : Keyed) : KeyLayout := ⟨s.settings.keyRoot⟩

/-! ## Transactions -/

/-- A transaction is open. -/
def isOpen (s : Keyed) : Bool := 0 < s.depth

/-- Enters a transaction. -/
def enterScope (s : Keyed) : Keyed := { s with depth := s.depth + 1 }

/-- Leaves a transaction. With the outermost one goes what is still collected. -/
def leaveScope (s : Keyed) : Keyed :=
  { s with
    depth := s.depth - 1
    collected := if s.depth = 1 then #[] else s.collected }

/-- Makes changes, or collects them if a transaction is open. -/
def submit (s : Keyed) (writes : List ByteWrite) : Keyed :=
  if s.isOpen then { s with collected := s.collected ++ writes }
  else { s with entries := s.entries.writeAll writes }

theorem submit_of_isOpen {s : Keyed} (h : s.isOpen = true) (writes : List ByteWrite) :
    s.submit writes = { s with collected := s.collected ++ writes } := if_pos h

theorem submit_of_not_isOpen {s : Keyed} (h : s.isOpen = false) (writes : List ByteWrite) :
    s.submit writes = { s with entries := s.entries.writeAll writes } := by
  simp [submit, h]

/-- Makes the collected changes and leaves the transaction. -/
def commit (s : Keyed) : Keyed :=
  { s with
    entries := s.entries.writeAll s.collected.toList
    collected := #[] }.leaveScope

/-! ## Reading -/

/-- The value of a key that is there and has not expired. -/
def live? (s : Keyed) (key : Bytes) : Option Bytes :=
  s.entries[key]?.bind (Envelope.unpack? s.now)

/-- The entries whose key has a beginning and that have not expired. -/
def liveUnder (s : Keyed) (start : Bytes) : List (Bytes × Bytes) :=
  (s.entries.scan start).filterMap fun (key, entry) =>
    (Envelope.unpack? s.now entry).map (key, ·)

/-- The node that a value encodes. -/
def decodeNode (payload : Bytes) : Outcome Node :=
  match (MsgPack.decode? payload).bind (Node.ofWire? .positional) with
  | some n => .ok n
  | none => .error (.undecodable .record)

/-- The edge that a value encodes. -/
def decodeEdge (payload : Bytes) : Outcome Edge :=
  match (MsgPack.decode? payload).bind (Edge.ofWire? .positional) with
  | some e => .ok e
  | none => .error (.undecodable .record)

/-- The node with an identifier, if it is stored. -/
def node? (s : Keyed) (id : String) : Outcome (Option Node) :=
  match s.live? (s.layout.node id) with
  | some payload => (decodeNode payload).map some
  | none => .ok none

/-- The node with an identifier. -/
def node (s : Keyed) (id : String) : Outcome Node := do
  match ← s.node? id with
  | some n => pure n
  | none => .error (.nodeMissing id)

/-- The node is stored. -/
def hasNode (s : Keyed) (id : String) : Bool := (s.live? (s.layout.node id)).isSome

/-- The edges under keys with a beginning. -/
def edgesUnder (s : Keyed) (start : Bytes) : Outcome (List Edge) :=
  (s.liveUnder start).mapM fun (_, payload) => decodeEdge payload

/-- The edges that leave a node, narrowed to a target and to a relation where given. The ends
of what a scan finds are looked at again. -/
def edgesFrom (s : Keyed) (source : String) (target : Option String) (kind : Option EdgeKind) :
    Outcome (List Edge) := do
  let found ← s.edgesUnder (s.layout.start ("edges" :: source :: target.toList))
  pure (found.filter fun e =>
    e.source = source && (target.all fun t => e.target = t) && kind.all fun k => e.kind = k)

/-- The edges that reach a node, narrowed to a relation where given. -/
def edgesTo (s : Keyed) (target : String) (kind : Option EdgeKind) : Outcome (List Edge) := do
  let found ← s.edgesUnder (s.layout.start ["incoming", target])
  pure (found.filter fun e => e.target = target && kind.all fun k => e.kind = k)

/-- The identifiers under a kind. -/
def idsOfKind (s : Keyed) (kind : NodeKind) : List String :=
  let start := s.layout.start ["type", kind.name]
  (s.liveUnder start).filterMap fun (key, _) => ofUtf8? (key.drop start.length)

/-- One page of the nodes of a kind, or of all nodes, that a filter accepts, by identifier. -/
def findNodes (s : Keyed) (kind : Option NodeKind) (filter : Filter) (limit : Option Nat)
    (offset : Nat) : Outcome (List Node) := do
  let ids := (kind.elim NodeKind.all List.singleton).flatMap s.idsOfKind
  let sorted := ids.mergeSort fun a b => a ≤ b
  let found := s.entries.getMany (sorted.map s.layout.node)
  let payloads := found.filterMap fun entry => entry.bind (Envelope.unpack? s.now)
  let nodes ← payloads.mapM decodeNode
  let page := (nodes.filter filter.accepts).drop offset
  pure (limit.elim page page.take)

/-- The number of nodes, of one kind or of all. -/
def nodeCount (s : Keyed) (kind : Option NodeKind) : Nat :=
  (s.liveUnder (s.layout.start (kind.elim ["node"] fun k => ["type", k.name]))).length

/-- The number of edges, of one relation or of all. -/
def edgeCount (s : Keyed) (kind : Option EdgeKind) : Nat :=
  (s.liveUnder (s.layout.start (kind.elim ["edges"] fun k => ["edge_type", k.name]))).length

/-- The reader of the records. -/
def reader (s : Keyed) : RecordReader where
  node? := s.node?
  edgesFrom := fun id => s.edgesFrom id none none
  edgeBound := s.entries.size

/-- The graph that a root reaches within a depth. -/
def loadGraph (s : Keyed) (root : String) (maxDepth : UInt64) : Outcome Graph :=
  s.reader.load root maxDepth.toNat

/-- Totals and counts. -/
def statistics (s : Keyed) : Statistics where
  backend := "key-value"
  nodeCount := s.nodeCount none
  edgeCount := s.edgeCount none
  nodesByKind := Statistics.occurring (fun kind => s.nodeCount (some kind)) NodeKind.all
  edgesByKind := Statistics.occurring (fun kind => s.edgeCount (some kind)) EdgeKind.all

/-! ## Writing -/

/-- The moment at which something saved now expires. -/
def expiry (s : Keyed) : Life → UInt64
  | .standard => Envelope.expiryOf s.now s.settings.defaultLife
  | .forever => Envelope.expiryOf s.now none
  | .span d => Envelope.expiryOf s.now (some d)

/-- The changes that save a node. -/
def nodeWrites (layout : KeyLayout) (expiry : UInt64) (n : Node) : List ByteWrite :=
  [.put (layout.node n.id) (Envelope.pack expiry (MsgPack.encode n.toWire)),
    .put (layout.nodeOfKind n.kind n.id) (Envelope.pack expiry [])]

/-- The changes that save an edge. -/
def edgeWrites (layout : KeyLayout) (expiry : UInt64) (e : Edge) : List ByteWrite :=
  let entry := Envelope.pack expiry (MsgPack.encode e.toWire)
  [.put (layout.edge e.key) entry, .put (layout.incoming e.key) entry,
    .put (layout.edgeOfKind e.key) (Envelope.pack expiry [])]

/-- The changes that delete an edge. -/
def edgeDeletes (layout : KeyLayout) (key : EdgeKey) : List ByteWrite :=
  (layout.edgeKeys key).map .delete

/-- The changes that save the nodes and edges of a graph. -/
def graphWrites (layout : KeyLayout) (expiry : UInt64) (g : Graph) : List ByteWrite :=
  g.nodeList.flatMap (nodeWrites layout expiry) ++ g.edgeList.flatMap (edgeWrites layout expiry)

/-- The changes that delete a node and the edges that leave it, and those that reach it if the
settings say so. -/
def nodeDeletes (s : Keyed) (id : String) : Outcome (List ByteWrite) := do
  let leaving ← s.edgesFrom id none none
  let reaching ← if s.settings.cascadeIncoming then s.edgesTo id none else pure []
  pure ((s.layout.nodeKeys id).map .delete ++
    (leaving ++ reaching).flatMap fun e => edgeDeletes s.layout e.key)

/-- The changes that delete the edges between two nodes, of one relation or of all. -/
def betweenDeletes (s : Keyed) (source target : String) (kind : Option EdgeKind) :
    Outcome (List ByteWrite) := do
  match kind with
  | some k => pure (edgeDeletes s.layout ⟨source, target, k⟩)
  | none =>
      let between ← s.edgesFrom source (some target) none
      pure (between.flatMap fun e => edgeDeletes s.layout ⟨source, target, e.kind⟩)

/-- The changes that delete every entry of the store, expired ones too. -/
def allDeletes (s : Keyed) : List ByteWrite :=
  (s.entries.scan (s.layout.start [])).map fun (key, _) => .delete key

/-- Saves a node in place of one with the same identifier. -/
def saveNode (s : Keyed) (n : Node) : Keyed :=
  s.submit (nodeWrites s.layout (s.expiry .standard) n)

/-- Saves an edge in place of one with the same key. -/
def saveEdge (s : Keyed) (e : Edge) : Keyed :=
  s.submit (edgeWrites s.layout (s.expiry .standard) e)

/-- Saves the nodes and edges of a graph. -/
def saveGraph (s : Keyed) (g : Graph) (life : Life) : Keyed :=
  s.submit (graphWrites s.layout (s.expiry life) g)

/-- Deletes a node with its edges. -/
def deleteNode (s : Keyed) (id : String) : Outcome Keyed := (s.nodeDeletes id).map s.submit

/-- Deletes the edges between two nodes, of one relation or of all. -/
def deleteEdge (s : Keyed) (source target : String) (kind : Option EdgeKind) : Outcome Keyed :=
  (s.betweenDeletes source target kind).map s.submit

/-- Deletes everything. -/
def clear (s : Keyed) : Keyed := s.submit s.allDeletes

end Keyed

end ProgramGraph
