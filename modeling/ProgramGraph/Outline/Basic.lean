import ProgramGraph.File.Language

set_option autoImplicit false

/-! # Outlines of source files

What a parser reports about a source file: its functions with the calls in them, its classes
with their bases and methods, and its imports. Nothing in an outline is checked; a name may be
empty and a span of lines may be anything.
-/

namespace ProgramGraph

/-- A call inside a function. -/
structure CallOutline where
  /-- The name of what is called, as written. -/
  name : String
  line : Option UInt64
  callType : Option String
  arguments : Option String
  deriving Repr, DecidableEq, Inhabited

/-- A function of a file. -/
structure FunctionOutline where
  name : String
  qualified : Option String
  lineStart : UInt64
  lineEnd : UInt64
  complexity : Option UInt32
  parameters : List String
  calls : List CallOutline
  returnType : Option String
  decorators : List String
  docstring : Option String
  isAsync : Bool
  isGenerator : Bool
  deriving Repr, DecidableEq, Inhabited

/-- A class of a file. -/
structure ClassOutline where
  name : String
  qualified : Option String
  lineStart : UInt64
  lineEnd : UInt64
  /-- The base classes as written. -/
  bases : List String
  /-- The names of the methods. -/
  methods : List String
  attributes : List String
  decorators : List String
  docstring : Option String
  isAbstract : Bool
  deriving Repr, DecidableEq, Inhabited

/-- An import of a file. -/
structure ImportOutline where
  module : Option String
  name : Option String
  importType : Option String
  /-- The name under which the import is known in the file. -/
  asName : Option String
  line : Option UInt64
  deriving Repr, DecidableEq, Inhabited

/-- What was measured in a file. -/
structure Metrics where
  /-- The lines of code. -/
  lines : Option UInt64
  deriving Repr, DecidableEq, Inhabited

/-- A source file. -/
structure FileOutline where
  path : String
  language : String
  /-- The text of the file. -/
  source : Option String
  metrics : Option Metrics
  encoding : Option String
  /-- The size of the file in bytes. -/
  size : Option UInt64
  functions : List FunctionOutline
  classes : List ClassOutline
  imports : List ImportOutline
  deriving Repr, DecidableEq, Inhabited

/-- The function with a name and a span of lines, and nothing else. -/
def FunctionOutline.plain (name : String) (lineStart lineEnd : UInt64) : FunctionOutline :=
  ⟨name, none, lineStart, lineEnd, none, [], [], none, [], none, false, false⟩

/-- The qualified name; without one, the name. -/
def FunctionOutline.qualifiedName (f : FunctionOutline) : String := f.qualified.getD f.name

/-- The class with a name and a span of lines, and nothing else. -/
def ClassOutline.plain (name : String) (lineStart lineEnd : UInt64) : ClassOutline :=
  ⟨name, none, lineStart, lineEnd, [], [], [], [], none, false⟩

/-- The qualified name; without one, the name. -/
def ClassOutline.qualifiedName (c : ClassOutline) : String := c.qualified.getD c.name

/-- The call of a name. -/
def CallOutline.plain (name : String) : CallOutline := ⟨name, none, none, none⟩

/-- The import of a module. -/
def ImportOutline.plain (module : String) : ImportOutline := ⟨some module, none, none, none, none⟩

/-- The dotted name of the imported module; without one, the imported name. An empty name is
none. -/
def ImportOutline.moduleName? (i : ImportOutline) : Option String :=
  (i.module.or i.name).filter fun name => !name.isEmpty

/-- The number of lines of a text: a line feed ends a line, and what follows the last one is a
line if there is any of it. -/
def countLines : List Char → Nat
  | [] => 0
  | '\n' :: rest => countLines rest + 1
  | [_] => 1
  | _ :: c :: rest => countLines (c :: rest)

namespace FileOutline

/-- The file with a path and a language, and nothing else. -/
def plain (path language : String) : FileOutline :=
  ⟨path, language, none, none, none, none, [], [], []⟩

/-- The lines of code: as measured, or else as counted in the text, or else zero. -/
def lines (f : FileOutline) : UInt64 :=
  match f.metrics, f.source with
  | some metrics, _ => metrics.lines.getD 0
  | none, some source => UInt64.ofNat (countLines source.toList)
  | none, none => 0

/-- The number of functions and classes. -/
def entityCount (f : FileOutline) : Nat := f.functions.length + f.classes.length

/-- The number of calls in all functions. -/
def callCount (f : FileOutline) : Nat := (f.functions.flatMap FunctionOutline.calls).length

/-- The file without the documentation of its functions and classes. -/
def withoutDocs (f : FileOutline) : FileOutline :=
  { f with
    functions := f.functions.map fun fn => { fn with docstring := none }
    classes := f.classes.map fun c => { c with docstring := none } }

end FileOutline

end ProgramGraph
