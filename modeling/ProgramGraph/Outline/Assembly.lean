import ProgramGraph.Graph.Basic
import ProgramGraph.Outline.Basic
import ProgramGraph.Outline.Callee

set_option autoImplicit false

/-! # Assembling graphs

The graph of a source file has a node for the file, for each module that it imports, for each
function and for each class, and edges for what contains, calls, inherits from and imports
what. A call or a base class that the file does not define gets a placeholder. Line numbers
are words of 64 bits and become signed ones as they are.
-/

namespace ProgramGraph

namespace FileOutline

/-! ## Nodes -/

/-- The node of the file. -/
def fileNode (f : FileOutline) : Node :=
  (Node.identified (.file f.path f.language f.lines.toInt64) none
    |>.withExtra "encoding" (.text (f.encoding.getD "utf-8"))
    |>.withExtra "size_bytes" (.int (f.size.getD 0).toInt64))

/-- The node of an imported module. -/
def moduleNode (name : String) (i : ImportOutline) : Node :=
  (Node.identified (.ofDotted name) none).withExtra "import_type"
    (.text (i.importType.getD "import"))

/-- The node of a function of the file at a path. -/
def functionNode (path : String) (fn : FunctionOutline) : Node :=
  (Node.identified
      (.function fn.name fn.qualifiedName fn.lineStart.toInt64 fn.lineEnd.toInt64
        (fn.complexity.map fun n => Int64.ofNat n.toNat) fn.parameters fn.returnType fn.isAsync)
      (some path)
    |>.withExtra "decorators" (.texts fn.decorators)
    |>.withExtra "docstring" (.ofOption .text fn.docstring)
    |>.withExtra "is_generator" (.bool fn.isGenerator))

/-- The node of a class of the file at a path. -/
def classNode (path : String) (c : ClassOutline) : Node :=
  (Node.identified
      (.classDef c.name c.qualifiedName c.lineStart.toInt64 c.lineEnd.toInt64 c.bases c.methods)
      (some path)
    |>.withExtra "attributes" (.texts c.attributes)
    |>.withExtra "decorators" (.texts c.decorators)
    |>.withExtra "docstring" (.ofOption .text c.docstring)
    |>.withExtra "is_abstract" (.bool c.isAbstract))

/-- The name of the property that marks a placeholder. -/
def placeholderKey : String := "placeholder"

/-- The placeholder for a callee that the file does not define. -/
def calleePlaceholder (id name origin : String) : Node :=
  (Node.ofCore id (.function name (origin ++ "." ++ name) 0 0 none [] none false)
    |>.withExtra placeholderKey (.bool true)
    |>.withExtra "origin" (.text origin))

/-- The placeholder for a base class that the file does not define. -/
def basePlaceholder (id name : String) : Node :=
  (Node.ofCore id (.classDef name name 0 0 [] [])).withExtra placeholderKey (.bool true)

/-- Puts a node in unless there is one with its identifier. -/
def ensureNode (g : Graph) (n : Node) : Graph := if g.hasNode n.id then g else g.addNode n

/-! ## Parts of the graph -/

/-- The imported modules with the first import of each, in the order of the imports. -/
def importedModules (imports : List ImportOutline) : List (String × ImportOutline) :=
  let named := imports.filterMap fun i => i.moduleName?.map (·, i)
  (named.foldl (fun (acc : List (String × ImportOutline) × Std.TreeSet String) (name, i) =>
    if acc.2.contains name then acc else ((name, i) :: acc.1, acc.2.insert name))
    ([], ∅)).1.reverse

/-- Puts in an entity of the file, and the edge that says that the file contains it. -/
def addContained (fileId : String) (g : Graph) (entity : Node × UInt64) : Graph :=
  (g.addNode entity.1).attach
    (.ofCore fileId entity.1.id (.contains (some entity.2.toInt64)))

/-- The functions as nodes, with their first lines. -/
def functionNodes (f : FileOutline) : List (Node × UInt64) :=
  f.functions.map fun fn => (functionNode f.path fn, fn.lineStart)

/-- The classes as nodes, with their first lines. -/
def classNodes (f : FileOutline) : List (Node × UInt64) :=
  f.classes.map fun c => (classNode f.path c, c.lineStart)

/-- The identifiers of nodes by name; of several with one name the last counts. -/
def idsByName (nodes : List (Node × UInt64)) : Std.TreeMap String String :=
  nodes.foldl (fun acc (n, _) => acc.insert n.name n.id) ∅

/-- The graph of the file, its modules, its functions and its classes. -/
def skeleton (f : FileOutline) : Graph :=
  let fileNode := f.fileNode
  let modules := (importedModules f.imports).map fun (name, i) => moduleNode name i
  (f.functionNodes ++ f.classNodes).foldl (addContained fileNode.id)
    (((∅ : Graph).addNode fileNode).addNodes modules)

/-- The edge of a call. -/
def callEdge (source target : String) (call : CallOutline) : Edge :=
  .ofCore source target
    (.calls (call.line.map UInt64.toInt64) (call.callType.getD "direct") call.arguments)

/-- Puts in a call that the function with an identifier makes of a callee, and the placeholder of
a callee that the file does not define. -/
def addCallOf (callee : Callee) (g : Graph) (source : String) (call : CallOutline) : Graph :=
  let withCallee :=
    match callee.origin? with
    | some origin => ensureNode g (calleePlaceholder callee.id call.name origin)
    | none => g
  withCallee.attach (callEdge source callee.id call)

/-- Puts in a call of the function with an identifier. A call without a name is passed over. -/
def addCall (f : FileOutline) (inFile : Std.TreeMap String String)
    (acc : Graph × CalleeCache) (source : String) (call : CallOutline) : Graph × CalleeCache :=
  if call.name.isEmpty then acc
  else
    let (callee, cache) := acc.2.resolve inFile f.path call.name
    (addCallOf callee acc.1 source call, cache)

/-- The calls of the file, each with the identifier of the calling function. -/
def callList (f : FileOutline) : List (String × CallOutline) :=
  f.functions.flatMap fun fn =>
    fn.calls.map (nodeId .function fn.qualifiedName (some f.path), ·)

/-- The base classes as written, each with the identifier of the deriving class. -/
def baseList (f : FileOutline) : List (String × String) :=
  f.classes.flatMap fun c => c.bases.map ((classNode f.path c).id, ·)

/-- Puts in the edge from a class to a base class. -/
def addBase (f : FileOutline) (inFile : Std.TreeMap String String) (g : Graph)
    (derivation : String × String) : Graph :=
  let (source, base) := derivation
  let target := inFile[base]?.getD (nodeId .classDef base (some f.path))
  (ensureNode g (basePlaceholder target base)).attach
    (.ofCore source target (.inherits "single"))

/-- The edge of an import. -/
def importEdge (fileId name : String) (i : ImportOutline) : Edge :=
  .ofCore fileId (nodeId .module name none)
    (.imports (i.importType.getD "import") i.asName (i.line.map UInt64.toInt64))

/-- Puts in the edge from the file to an imported module. -/
def addImport (f : FileOutline) (g : Graph) (i : ImportOutline) : Graph :=
  match i.moduleName? with
  | some name => g.attach (importEdge f.fileNode.id name i)
  | none => g

end FileOutline

/-! ## The whole graph -/

/-- Assembles graphs, and remembers the callees of the file it works on. -/
structure Assembler where
  cache : CalleeCache
  deriving Inhabited

namespace Assembler

/-- The assembler that remembers nothing. -/
def fresh : Assembler := ⟨∅⟩

/-- The callee of a name in the file at a path. -/
def resolve (a : Assembler) (inFile : Std.TreeMap String String) (path name : String) :
    Callee × Assembler :=
  let (callee, cache) := a.cache.resolve inFile path name
  (callee, ⟨cache⟩)

/-- The assembler without what it remembers. -/
def forget (a : Assembler) : Assembler := { a with cache := ∅ }

/-- The graph of a file. What was remembered before is forgotten first. -/
def assemble (a : Assembler) (f : FileOutline) : Graph × Assembler :=
  let functions := FileOutline.idsByName f.functionNodes
  let classes := FileOutline.idsByName f.classNodes
  let (withCalls, cache) := f.callList.foldl
    (fun acc (source, call) => f.addCall functions acc source call) (f.skeleton, a.forget.cache)
  (f.imports.foldl f.addImport (f.baseList.foldl (f.addBase classes) withCalls), ⟨cache⟩)

end Assembler

/-- The graph of the file. -/
def FileOutline.graph (f : FileOutline) : Graph := (Assembler.fresh.assemble f).1

end ProgramGraph
