import ProgramGraph.Node.Identifier
import ProgramGraph.Property.Core

set_option autoImplicit false

/-! # Nodes

A node has an identifier, a typed core whose fields depend on its kind, and extra properties
that the library only carries. `Node.properties` shows core and extra as one map, the core
winning where both have a name; `Node.ofProperties` takes such a map apart again.
-/

namespace ProgramGraph

/-- The typed fields of a node. -/
inductive NodeCore where
  /-- A source file: its path, its language and its lines of code. -/
  | file (path language : String) (lines : Int64)
  /-- A module: its last dotted part and its dotted name. -/
  | module (name qualifiedName : String)
  /-- A function, with its span of lines, and what is known of its complexity and types. -/
  | function (name qualifiedName : String) (lineStart lineEnd : Int64)
      (complexity : Option Int64) (params : List String) (returnType : Option String)
      (isAsync : Bool)
  /-- A class, with its span of lines, the bases as written and the names of its methods. -/
  | classDef (name qualifiedName : String) (lineStart lineEnd : Int64)
      (bases methods : List String)
  /-- A variable. -/
  | variable (name qualifiedName : String)
  deriving Repr, DecidableEq, Inhabited

namespace NodeCore

/-- The kind that the core belongs to. -/
def kind : NodeCore → NodeKind
  | .file .. => .file
  | .module .. => .module
  | .function .. => .function
  | .classDef .. => .classDef
  | .variable .. => .variable

/-- The name of the entity; a file is named by its path. -/
def name : NodeCore → String
  | .file path _ _ => path
  | .module name _ => name
  | .function name .. => name
  | .classDef name .. => name
  | .variable name _ => name

/-- The qualified name of the entity; a file is named by its path. -/
def qualifiedName : NodeCore → String
  | .file path _ _ => path
  | .module _ qualified => qualified
  | .function _ qualified .. => qualified
  | .classDef _ qualified .. => qualified
  | .variable _ qualified => qualified

/-- The names of the properties that the core of a kind owns. -/
def keys : NodeKind → List String
  | .file => ["path", "language", "loc"]
  | .module | .variable => ["name", "qualified_name"]
  | .function =>
      ["name", "qualified_name", "line_start", "line_end", "complexity", "params", "return_type",
        "is_async"]
  | .classDef => ["name", "qualified_name", "line_start", "line_end", "base_classes", "methods"]

/-- The fields of the core as properties. An optional field without a value is left out. -/
def fields : NodeCore → Fields
  | .file path language lines =>
      [("path", .text path), ("language", .text language), ("loc", .int lines)]
  | .module name qualified | .variable name qualified =>
      [("name", .text name), ("qualified_name", .text qualified)]
  | .function name qualified lineStart lineEnd complexity params returnType isAsync =>
      [("name", .text name), ("qualified_name", .text qualified), ("line_start", .int lineStart),
        ("line_end", .int lineEnd)] ++
      Fields.optional "complexity" .int complexity ++ [("params", .texts params)] ++
      Fields.optional "return_type" .text returnType ++ [("is_async", .bool isAsync)]
  | .classDef name qualified lineStart lineEnd bases methods =>
      [("name", .text name), ("qualified_name", .text qualified), ("line_start", .int lineStart),
        ("line_end", .int lineEnd), ("base_classes", .texts bases), ("methods", .texts methods)]

/-- Takes the core of a kind out of properties. A field without a value has its default: the
empty text, zero, false or the empty list. -/
def take : NodeKind → Taking NodeCore
  | .file => do
      let path ← Taking.text "path"
      let language ← Taking.text "language"
      let lines ← Taking.int "loc"
      pure (.file (path.getD "") (language.getD "") (lines.getD 0))
  | .module => do
      let name ← Taking.text "name"
      let qualified ← Taking.text "qualified_name"
      pure (.module (name.getD "") (qualified.getD ""))
  | .function => do
      let name ← Taking.text "name"
      let qualified ← Taking.text "qualified_name"
      let lineStart ← Taking.int "line_start"
      let lineEnd ← Taking.int "line_end"
      let complexity ← Taking.int "complexity"
      let params ← Taking.texts "params"
      let returnType ← Taking.text "return_type"
      let isAsync ← Taking.bool "is_async"
      pure (.function (name.getD "") (qualified.getD "") (lineStart.getD 0) (lineEnd.getD 0)
        complexity (params.getD []) returnType (isAsync.getD false))
  | .classDef => do
      let name ← Taking.text "name"
      let qualified ← Taking.text "qualified_name"
      let lineStart ← Taking.int "line_start"
      let lineEnd ← Taking.int "line_end"
      let bases ← Taking.texts "base_classes"
      let methods ← Taking.texts "methods"
      pure (.classDef (name.getD "") (qualified.getD "") (lineStart.getD 0) (lineEnd.getD 0)
        (bases.getD []) (methods.getD []))
  | .variable => do
      let name ← Taking.text "name"
      let qualified ← Taking.text "qualified_name"
      pure (.variable (name.getD "") (qualified.getD ""))

/-- The module with a dotted name, called by its last part. -/
def ofDotted (qualified : String) : NodeCore :=
  let last := (qualified.toList.reverse.takeWhile (· != '.')).reverse
  .module (String.ofList last) qualified

end NodeCore

/-- A node of the graph. -/
structure Node where
  id : String
  core : NodeCore
  /-- Properties beyond the core. -/
  extra : Properties
  deriving Inhabited

namespace Node

/-- The node with a core and no extra properties. -/
def ofCore (id : String) (core : NodeCore) : Node := ⟨id, core, ∅⟩

/-- The node whose identifier follows from its core: a file is identified by its path and a
module by its dotted name, any other entity within the file that it belongs to. -/
def identified (core : NodeCore) (path : Option String) : Node :=
  let scope := match core.kind with
    | .file | .module => none
    | _ => path
  .ofCore (nodeId core.kind core.qualifiedName scope) core

/-- The kind of the node. -/
def kind (n : Node) : NodeKind := n.core.kind

/-- The name of the entity. -/
def name (n : Node) : String := n.core.name

/-- The qualified name of the entity. -/
def qualifiedName (n : Node) : String := n.core.qualifiedName

/-- Sets an extra property. A name that the core owns is left alone. -/
def withExtra (n : Node) (key : String) (value : Property) : Node :=
  if (NodeCore.keys n.kind).contains key then n
  else { n with extra := n.extra.insert key value }

/-- Core and extra properties as one map. -/
def properties (n : Node) : Properties := n.core.fields.putOver n.extra

/-- One property by name. -/
def property? (n : Node) (key : String) : Option Property := n.properties[key]?

/-- The two nodes stand for the same entity. -/
def sameEntity (a b : Node) : Bool := a.id == b.id

/-- The two nodes have the same kind and equal properties. -/
def sameContent (a b : Node) : Bool := a.kind == b.kind && a.properties.same b.properties

/-- The node of a kind with the given properties; those that its core does not own are extra.
`owner` names the node in a failure. -/
def ofProperties (owner id : String) (kind : NodeKind) (props : Properties) : Outcome Node :=
  (NodeCore.take kind owner props).map fun (core, extra) => ⟨id, core, extra⟩

end Node

end ProgramGraph
