import ProgramGraph.Text.Ascii

set_option autoImplicit false

/-! # Kinds of nodes

The five kinds of program entities that a graph holds.
-/

namespace ProgramGraph

/-- The kind of a program entity. -/
inductive NodeKind where
  /-- A source file. -/
  | file
  /-- An imported module or package. -/
  | module
  /-- A function or method. -/
  | function
  /-- A class, struct or type definition. -/
  | classDef
  /-- A variable or constant. -/
  | variable
  deriving Repr, DecidableEq, Inhabited

namespace NodeKind

/-- Every kind, in the order of their declaration. -/
def all : List NodeKind := [.file, .module, .function, .classDef, .variable]

/-- The name of the kind. -/
def name : NodeKind → String
  | .file => "file"
  | .module => "module"
  | .function => "function"
  | .classDef => "class"
  | .variable => "variable"

/-- Every kind with its name. -/
def named : List (String × NodeKind) := all.map fun kind => (kind.name, kind)

/-- The kind with a name, in any case of letters. -/
def ofText? (text : String) : Option NodeKind :=
  all.find? fun kind => Text.equalIgnoringAsciiCase kind.name text

end NodeKind

end ProgramGraph
