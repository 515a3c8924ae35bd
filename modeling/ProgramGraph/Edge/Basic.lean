import ProgramGraph.Edge.Kind
import ProgramGraph.Property.Core

set_option autoImplicit false

/-! # Edges

An edge relates two nodes by a relation. Like a node it has a typed core and extra properties.
It is identified by its ends and its relation (`EdgeKey`); keys are ordered by source, target
and relation.
-/

namespace ProgramGraph

/-- The typed fields of an edge. -/
inductive EdgeCore where
  /-- The line where the child is defined. -/
  | contains (line : Option Int64)
  /-- The line of the call, its kind and its arguments. -/
  | calls (site : Option Int64) (callType : String) (arguments : Option String)
  /-- The kind of inheritance. -/
  | inherits (inheritance : String)
  /-- The kind of import, the local name and the line. -/
  | imports (importType : String) (asName : Option String) (line : Option Int64)
  /-- The kind of reference and its line. -/
  | references (reference : String) (line : Option Int64)
  /-- The kind of definition and its line. -/
  | defines (definition : String) (line : Option Int64)
  deriving Repr, DecidableEq, Inhabited

namespace EdgeCore

/-- The relation that the core belongs to. -/
def kind : EdgeCore → EdgeKind
  | .contains _ => .contains
  | .calls .. => .calls
  | .inherits _ => .inherits
  | .imports .. => .imports
  | .references .. => .references
  | .defines .. => .defines

/-- The core of a relation when nothing more is known. -/
def plain : EdgeKind → EdgeCore
  | .contains => .contains none
  | .calls => .calls none "direct" none
  | .inherits => .inherits "single"
  | .imports => .imports "import" none none
  | .references => .references "read" none
  | .defines => .defines "local" none

/-- The fields of the core as properties. An optional field without a value is left out. -/
def fields : EdgeCore → Fields
  | .contains line => Fields.optional "line_number" .int line
  | .calls site callType arguments =>
      Fields.optional "call_site" .int site ++ [("call_type", .text callType)] ++
      Fields.optional "arguments" .text arguments
  | .inherits inheritance => [("inheritance_type", .text inheritance)]
  | .imports importType asName line =>
      [("import_type", .text importType)] ++ Fields.optional "alias" .text asName ++
      Fields.optional "line_number" .int line
  | .references reference line =>
      [("reference_type", .text reference)] ++ Fields.optional "line_number" .int line
  | .defines definition line =>
      [("definition_type", .text definition)] ++ Fields.optional "line_number" .int line

/-- Takes the core of a relation out of properties. A kind of call, import and so on that is
not given is that of `EdgeCore.plain`. -/
def take : EdgeKind → Taking EdgeCore
  | .contains => do
      let line ← Taking.int "line_number"
      pure (.contains line)
  | .calls => do
      let site ← Taking.int "call_site"
      let callType ← Taking.text "call_type"
      let arguments ← Taking.text "arguments"
      pure (.calls site (callType.getD "direct") arguments)
  | .inherits => do
      let inheritance ← Taking.text "inheritance_type"
      pure (.inherits (inheritance.getD "single"))
  | .imports => do
      let importType ← Taking.text "import_type"
      let asName ← Taking.text "alias"
      let line ← Taking.int "line_number"
      pure (.imports (importType.getD "import") asName line)
  | .references => do
      let reference ← Taking.text "reference_type"
      let line ← Taking.int "line_number"
      pure (.references (reference.getD "read") line)
  | .defines => do
      let definition ← Taking.text "definition_type"
      let line ← Taking.int "line_number"
      pure (.defines (definition.getD "local") line)

end EdgeCore

/-- What identifies an edge: its ends and its relation. -/
structure EdgeKey where
  source : String
  target : String
  kind : EdgeKind
  deriving Repr, DecidableEq, Inhabited

namespace EdgeKey

/-- Keys are compared by source, then target, then relation. -/
instance : Ord EdgeKey where
  compare :=
    compareLex (compareOn EdgeKey.source) (compareLex (compareOn EdgeKey.target)
      (compareOn fun key => key.kind.rank))

instance : Std.TransOrd EdgeKey :=
  inferInstanceAs (Std.TransCmp (compareLex (compareOn EdgeKey.source)
    (compareLex (compareOn EdgeKey.target) (compareOn fun key => key.kind.rank))))

instance : Std.LawfulEqOrd EdgeKey where
  eq_of_compare {a b} h := by
    obtain ⟨hs, h⟩ := Ordering.then_eq_eq.1 h
    obtain ⟨ht, hk⟩ := Ordering.then_eq_eq.1 h
    have hs := Std.LawfulEqOrd.eq_of_compare hs
    have ht := Std.LawfulEqOrd.eq_of_compare ht
    have hk := EdgeKind.eq_of_rank_eq (Std.LawfulEqOrd.eq_of_compare hk)
    cases a
    cases b
    simp_all

/-- The key in running text. -/
def display (key : EdgeKey) : String :=
  key.source ++ " -[" ++ key.kind.name ++ "]-> " ++ key.target

end EdgeKey

/-- An edge of the graph. -/
structure Edge where
  source : String
  target : String
  core : EdgeCore
  /-- Properties beyond the core. -/
  extra : Properties
  deriving Inhabited

namespace Edge

/-- The edge with a core and no extra properties. -/
def ofCore (source target : String) (core : EdgeCore) : Edge := ⟨source, target, core, ∅⟩

/-- The relation of the edge. -/
def kind (e : Edge) : EdgeKind := e.core.kind

/-- What identifies the edge. -/
def key (e : Edge) : EdgeKey := ⟨e.source, e.target, e.kind⟩

/-- Sets an extra property, whatever its name. -/
def withExtra (e : Edge) (key : String) (value : Property) : Edge :=
  { e with extra := e.extra.insert key value }

/-- Core and extra properties as one map, the core winning. -/
def properties (e : Edge) : Properties := e.core.fields.putOver e.extra

/-- The edges in the order of their keys; those with one key stay in their order. -/
def sorted (edges : List Edge) : List Edge :=
  edges.mergeSort fun a b => (compare a.key b.key).isLE

/-- The two edges are one: same ends, same relation. -/
def sameEdge (a b : Edge) : Bool := a.key == b.key

/-- The edge with the given properties; those that its core does not own are extra. -/
def ofProperties (source target : String) (kind : EdgeKind) (props : Properties) :
    Outcome Edge :=
  (EdgeCore.take kind ("edge " ++ source ++ " -> " ++ target) props).map fun (core, extra) =>
    ⟨source, target, core, extra⟩

end Edge

end ProgramGraph
