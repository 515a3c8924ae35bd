import ProgramGraph.Edge.Record
import ProgramGraph.Graph.Basic
import ProgramGraph.Json.Parser
import ProgramGraph.Json.Printer
import ProgramGraph.MsgPack.Decode
import ProgramGraph.MsgPack.Encode
import ProgramGraph.Node.Record

set_option autoImplicit false

/-! # Graphs as documents

A graph is written as a map from identifiers to node records and a list of edge records, both
in order, in JSON or in the binary encoding.
-/

namespace ProgramGraph.Graph

open ProgramGraph.Wire

/-- The graph as a value on the wire. -/
def document (g : Graph) : Value :=
  .map
    [(.name "nodes", .map (g.nodes.toList.map fun (id, n) => (Key.name id, n.toWire))),
      (.name "edges", .list (g.edgeList.map Edge.toWire))]

/-- The graph as two lists of records, for a reader. -/
def listing (g : Graph) : Value :=
  .map
    [(.name "nodes", .list (g.nodeList.map Node.toWire)),
      (.name "edges", .list (g.edgeList.map Edge.toWire))]

/-- The nodes and edges of a document. The keys of the node map only settle which of several
nodes is read and in which order: of a repeated key the last counts. -/
def parts? (encoding : Encoding) (v : Value) : Option (List Node × List Edge) := do
  let m ← v.members? [["nodes"], ["edges"]]
  let entries ← m.required "nodes" (Value.entries? (Node.ofWire? encoding))
  let edges ← m.required "edges" (Value.list? (Edge.ofWire? encoding))
  let nodes : Std.TreeMap String Node :=
    entries.foldl (fun acc (key, n) => acc.insert key n) ∅
  pure (nodes.values, edges)

/-- The graph of a document. Each node goes by its own identifier. -/
def ofDocument (encoding : Encoding) (what : Encoded) (v : Option Value) : Outcome Graph :=
  match v.bind (parts? encoding) with
  | some (nodes, edges) => ofLists nodes edges
  | none => .error (.undecodable what)

/-- The graph in JSON. -/
def toJson (g : Graph) : String := Json.print g.document

/-- The graph that a JSON text denotes. -/
def ofJson (text : String) : Outcome Graph := ofDocument .named .graphJson (Json.parse? text)

/-- The graph in the binary encoding. -/
def toBytes (g : Graph) : Text.Bytes := MsgPack.encode g.document

/-- The graph that bytes denote. -/
def ofBytes (bytes : Text.Bytes) : Outcome Graph :=
  ofDocument .positional .graphBytes (MsgPack.decode? bytes)

end ProgramGraph.Graph
