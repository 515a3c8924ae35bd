import ProgramGraph.Edge.Basic
import ProgramGraph.Node.Kind
import ProgramGraph.Text.Utf8

set_option autoImplicit false

/-! # The keys of a keyed store

A keyed store holds a node under its identifier and under its kind, and an edge under its
source, under its target and under its relation. A key is a sequence of parts with colons
between them, the root of the store first:

    root:node:id
    root:type:kind:id
    root:edges:source:target:relation
    root:incoming:target:source:relation
    root:edge_type:relation:source:target

Identifiers hold colons themselves, so a scan over the edges of a node also meets edges of
nodes whose identifier begins with the scanned one and a colon.
-/

namespace ProgramGraph

open ProgramGraph.Text

/-- What every key of a store starts with. -/
structure KeyLayout where
  root : String
  deriving Repr, DecidableEq, Inhabited

namespace KeyLayout

/-- The key with the given parts behind the root. -/
def key (layout : KeyLayout) (parts : List String) : Bytes :=
  utf8 (":".intercalate (layout.root :: parts))

/-- The beginning of the keys that continue the given parts. -/
def start (layout : KeyLayout) (parts : List String) : Bytes := layout.key parts ++ utf8 ":"

/-- The key of a node. -/
def node (layout : KeyLayout) (id : String) : Bytes := layout.key ["node", id]

/-- The key of a node under its kind. -/
def nodeOfKind (layout : KeyLayout) (kind : NodeKind) (id : String) : Bytes :=
  layout.key ["type", kind.name, id]

/-- The key of an edge under its source. -/
def edge (layout : KeyLayout) (k : EdgeKey) : Bytes :=
  layout.key ["edges", k.source, k.target, k.kind.name]

/-- The key of an edge under its target. -/
def incoming (layout : KeyLayout) (k : EdgeKey) : Bytes :=
  layout.key ["incoming", k.target, k.source, k.kind.name]

/-- The key of an edge under its relation. -/
def edgeOfKind (layout : KeyLayout) (k : EdgeKey) : Bytes :=
  layout.key ["edge_type", k.kind.name, k.source, k.target]

/-- The three keys of an edge. -/
def edgeKeys (layout : KeyLayout) (k : EdgeKey) : List Bytes :=
  [layout.edge k, layout.incoming k, layout.edgeOfKind k]

/-- The key of a node and those under every kind. -/
def nodeKeys (layout : KeyLayout) (id : String) : List Bytes :=
  layout.node id :: NodeKind.all.map fun kind => layout.nodeOfKind kind id

end KeyLayout

end ProgramGraph
