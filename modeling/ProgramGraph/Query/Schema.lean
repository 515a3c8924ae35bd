import Std.Data.TreeMap
import ProgramGraph.Edge.Kind
import ProgramGraph.Node.Kind
import ProgramGraph.Query.Syntax
import ProgramGraph.Wire.Value

set_option autoImplicit false

/-! # Schemas

A schema says which properties the nodes of each kind and the edges of each relation may
carry. A query is checked against it: an unknown kind is a fault, an unknown property or
relation only gives a warning.
-/

namespace ProgramGraph

open ProgramGraph.Wire

/-- The properties of the nodes of a kind. -/
structure NodeSchema where
  required : List String
  optional : List String
  deriving Repr, DecidableEq, Inhabited

namespace NodeSchema

/-- The property is required or optional. -/
def knows (s : NodeSchema) (property : String) : Bool :=
  s.required.contains property || s.optional.contains property

/-- The properties of a kind as a map. -/
def toWire (s : NodeSchema) : Value :=
  .map
    [(.name "required_properties", .list (s.required.map .text)),
      (.name "optional_properties", .list (s.optional.map .text))]

/-- Reads the properties of a kind. -/
def ofWire? (v : Value) : Option NodeSchema := do
  let m ← v.members? [["required_properties"], ["optional_properties"]]
  let required ← m.orElse "required_properties" (Value.list? Value.text?) []
  let optional ← m.orElse "optional_properties" (Value.list? Value.text?) []
  pure ⟨required, optional⟩

end NodeSchema

/-- The kinds and relations of a graph with their properties. -/
structure Schema where
  /-- The properties of the kinds, by name. -/
  nodeKinds : Std.TreeMap String NodeSchema
  /-- The properties of the relations, by name. -/
  edgeKinds : Std.TreeMap String (List String)
  deriving Inhabited

namespace Schema

/-! ## The schema of built graphs -/

/-- The properties of the nodes of a kind in a built graph. -/
def builtNode : NodeKind → NodeSchema
  | .file => ⟨["path", "language"], ["loc", "encoding", "size_bytes"]⟩
  | .module => ⟨["name", "qualified_name"], ["import_type"]⟩
  | .function =>
      ⟨["name", "qualified_name", "line_start", "line_end"],
        ["complexity", "params", "return_type", "is_async", "is_generator", "decorators",
          "docstring", "placeholder", "origin"]⟩
  | .classDef =>
      ⟨["name", "qualified_name", "line_start", "line_end"],
        ["base_classes", "methods", "attributes", "decorators", "docstring", "is_abstract",
          "placeholder"]⟩
  | .variable => ⟨["name", "qualified_name"], ["value_type"]⟩

/-- The properties of the edges of a relation in a built graph. -/
def builtEdge : EdgeKind → List String
  | .contains => ["line_number"]
  | .calls => ["call_site", "call_type", "arguments"]
  | .inherits => ["inheritance_type"]
  | .imports => ["import_type", "alias", "line_number"]
  | .references => ["reference_type", "line_number"]
  | .defines => ["definition_type", "line_number"]

/-- The schema of the graphs that are built from parsed files. -/
def minimal : Schema where
  nodeKinds := .ofList (NodeKind.all.map fun kind => (kind.name, builtNode kind))
  edgeKinds := .ofList (EdgeKind.all.map fun kind => (kind.name, builtEdge kind))

/-! ## On the wire -/

/-- The schema as a map. -/
def toWire (s : Schema) : Value :=
  .map
    [(.name "node_types",
        .map (s.nodeKinds.toList.map fun (name, kind) => (Key.name name, kind.toWire))),
      (.name "edge_types",
        .map (s.edgeKinds.toList.map fun (name, properties) =>
          (Key.name name, .map [(.name "properties", .list (properties.map .text))])))]

/-- Reads the properties of a relation. -/
def edgeOfWire? (v : Value) : Option (List String) := do
  let m ← v.members? [["properties"]]
  m.orElse "properties" (Value.list? Value.text?) []

/-- Reads a schema. Of a repeated name the last counts. -/
def ofWire? (v : Value) : Option Schema := do
  let m ← v.members? [["node_types"], ["edge_types"]]
  let nodeKinds ← m.orElse "node_types" (Value.entries? NodeSchema.ofWire?) []
  let edgeKinds ← m.orElse "edge_types" (Value.entries? edgeOfWire?) []
  pure ⟨.ofList nodeKinds, .ofList edgeKinds⟩

/-! ## Checking queries -/

/-- The warning that a condition gives, if it gives one. -/
def warning? (s : Schema) (kindName : String) (kind : NodeSchema) :
    Query.Condition → Option String
  | .attribute name _ _ =>
      if kind.knows name then none
      else some ("Unknown attribute '" ++ name ++ "' for node type '" ++ kindName ++ "'")
  | .related relation _ =>
      if s.edgeKinds.contains relation.name then none
      else
        some ("Unknown relation " ++ Query.relationWord relation ++ ": schema has no '" ++
          relation.name ++ "' edges")

/-- The warnings that a query gives. It fails if the kind that is looked for is unknown. -/
def check (s : Schema) (q : Query) : Outcome (List String) :=
  let kindName := Text.lowerAscii q.kind
  match s.nodeKinds[kindName]? with
  | some kind => .ok (q.conditionList.filterMap (s.warning? kindName kind))
  | none => .error (.query (.unknownKind q.kind) none)

end Schema

end ProgramGraph
