import ProgramGraph.Outline.Basic
import ProgramGraph.Wire.Value

set_option autoImplicit false

/-! # Outlines on the wire

Every member of an outline may be left out. What has no value is left out when an outline is
written. The name and the line of a call may also go by the names `function` and
`line_number`; a call is written with the first of its names, and `CallSpelling` says which ones
another writer takes.
-/

namespace ProgramGraph

open ProgramGraph.Wire

/-- A word on the wire. -/
def wordToWire (n : UInt64) : Value := .integer n.toNat

/-- A list of texts on the wire. -/
def textsToWire (items : List String) : Value := .list (items.map .text)

/-- Reads a list of texts. -/
def textsOfWire? : Value → Option (List String) := Value.list? Value.text?

/-- Which of its two names the name of a call goes by, and which the line. -/
structure CallSpelling where
  /-- The name goes by `function`. -/
  asFunction : Bool
  /-- The line goes by `line_number`. -/
  asLineNumber : Bool
  deriving Repr, DecidableEq

namespace CallSpelling

/-- Both go by their first names. -/
def standard : CallSpelling := ⟨false, false⟩

/-- What the name of the call goes by. -/
def nameKey (spelling : CallSpelling) : String := if spelling.asFunction then "function" else "name"

/-- What the line of the call goes by. -/
def lineKey (spelling : CallSpelling) : String := if spelling.asLineNumber then "line_number" else "line"

end CallSpelling

namespace CallOutline

/-- The call as a map in a spelling. -/
def toWireIn (spelling : CallSpelling) (c : CallOutline) : Value :=
  Value.ofMembers
    [(spelling.nameKey, some (.text c.name)), (spelling.lineKey, c.line.map wordToWire),
      ("type", c.callType.map .text), ("arguments", c.arguments.map .text)]

/-- The call as a map. -/
def toWire (c : CallOutline) : Value := c.toWireIn .standard

/-- Reads a call. -/
def ofWire? (v : Value) : Option CallOutline := do
  let m ← v.members? [["name", "function"], ["line", "line_number"], ["type"], ["arguments"]]
  let name ← m.orElse "name" Value.text? ""
  let line ← m.optional "line" Value.word64?
  let callType ← m.optional "type" Value.text?
  let arguments ← m.optional "arguments" Value.text?
  pure ⟨name, line, callType, arguments⟩

end CallOutline

namespace FunctionOutline

/-- The function as a map, each call in a spelling of its own. -/
def toWireIn (spell : CallOutline → CallSpelling) (f : FunctionOutline) : Value :=
  Value.ofMembers
    [("name", some (.text f.name)), ("qualified_name", f.qualified.map .text),
      ("line_start", some (wordToWire f.lineStart)), ("line_end", some (wordToWire f.lineEnd)),
      ("complexity", f.complexity.map fun n => .integer n.toNat),
      ("parameters", some (textsToWire f.parameters)),
      ("calls", some (.list (f.calls.map fun c => c.toWireIn (spell c)))),
      ("return_type", f.returnType.map .text), ("decorators", some (textsToWire f.decorators)),
      ("docstring", f.docstring.map .text), ("is_async", some (.bool f.isAsync)),
      ("is_generator", some (.bool f.isGenerator))]

/-- The function as a map. -/
def toWire (f : FunctionOutline) : Value := f.toWireIn fun _ => .standard

/-- Reads a function. -/
def ofWire? (v : Value) : Option FunctionOutline := do
  let m ← v.members? [["name"], ["qualified_name"], ["line_start"], ["line_end"], ["complexity"],
    ["parameters"], ["calls"], ["return_type"], ["decorators"], ["docstring"], ["is_async"],
    ["is_generator"]]
  let name ← m.orElse "name" Value.text? "unknown"
  let qualified ← m.optional "qualified_name" Value.text?
  let lineStart ← m.orElse "line_start" Value.word64? 0
  let lineEnd ← m.orElse "line_end" Value.word64? 0
  let complexity ← m.optional "complexity" Value.word32?
  let parameters ← m.orElse "parameters" textsOfWire? []
  let calls ← m.orElse "calls" (Value.list? CallOutline.ofWire?) []
  let returnType ← m.optional "return_type" Value.text?
  let decorators ← m.orElse "decorators" textsOfWire? []
  let docstring ← m.optional "docstring" Value.text?
  let isAsync ← m.orElse "is_async" Value.bool? false
  let isGenerator ← m.orElse "is_generator" Value.bool? false
  pure ⟨name, qualified, lineStart, lineEnd, complexity, parameters, calls, returnType,
    decorators, docstring, isAsync, isGenerator⟩

end FunctionOutline

/-- A method as a map with its name. -/
def methodToWire (name : String) : Value := Value.ofMembers [("name", some (.text name))]

/-- Reads the name of a method. -/
def methodOfWire? (v : Value) : Option String := do
  let m ← v.members? [["name"]]
  m.orElse "name" Value.text? ""

namespace ClassOutline

/-- The class as a map. -/
def toWire (c : ClassOutline) : Value :=
  Value.ofMembers
    [("name", some (.text c.name)), ("qualified_name", c.qualified.map .text),
      ("line_start", some (wordToWire c.lineStart)), ("line_end", some (wordToWire c.lineEnd)),
      ("base_classes", some (textsToWire c.bases)),
      ("methods", some (.list (c.methods.map methodToWire))),
      ("attributes", some (textsToWire c.attributes)),
      ("decorators", some (textsToWire c.decorators)), ("docstring", c.docstring.map .text),
      ("is_abstract", some (.bool c.isAbstract))]

/-- Reads a class. -/
def ofWire? (v : Value) : Option ClassOutline := do
  let m ← v.members? [["name"], ["qualified_name"], ["line_start"], ["line_end"],
    ["base_classes"], ["methods"], ["attributes"], ["decorators"], ["docstring"],
    ["is_abstract"]]
  let name ← m.orElse "name" Value.text? "unknown"
  let qualified ← m.optional "qualified_name" Value.text?
  let lineStart ← m.orElse "line_start" Value.word64? 0
  let lineEnd ← m.orElse "line_end" Value.word64? 0
  let bases ← m.orElse "base_classes" textsOfWire? []
  let methods ← m.orElse "methods" (Value.list? methodOfWire?) []
  let attributes ← m.orElse "attributes" textsOfWire? []
  let decorators ← m.orElse "decorators" textsOfWire? []
  let docstring ← m.optional "docstring" Value.text?
  let isAbstract ← m.orElse "is_abstract" Value.bool? false
  pure ⟨name, qualified, lineStart, lineEnd, bases, methods, attributes, decorators, docstring,
    isAbstract⟩

end ClassOutline

namespace ImportOutline

/-- The import as a map. -/
def toWire (i : ImportOutline) : Value :=
  Value.ofMembers
    [("module", i.module.map .text), ("name", i.name.map .text), ("type", i.importType.map .text),
      ("alias", i.asName.map .text), ("line_number", i.line.map wordToWire)]

/-- Reads an import. -/
def ofWire? (v : Value) : Option ImportOutline := do
  let m ← v.members? [["module"], ["name"], ["type"], ["alias"], ["line_number"]]
  let module ← m.optional "module" Value.text?
  let name ← m.optional "name" Value.text?
  let importType ← m.optional "type" Value.text?
  let asName ← m.optional "alias" Value.text?
  let line ← m.optional "line_number" Value.word64?
  pure ⟨module, name, importType, asName, line⟩

end ImportOutline

namespace Metrics

/-- The measures as a map. -/
def toWire (m : Metrics) : Value := Value.ofMembers [("loc", m.lines.map wordToWire)]

/-- Reads measures. -/
def ofWire? (v : Value) : Option Metrics := do
  let m ← v.members? [["loc"]]
  let lines ← m.optional "loc" Value.word64?
  pure ⟨lines⟩

end Metrics

namespace FileOutline

/-- The file as a map, each call in a spelling of its own. -/
def toWireIn (spell : CallOutline → CallSpelling) (f : FileOutline) : Value :=
  Value.ofMembers
    [("file_path", some (.text f.path)), ("language", some (.text f.language)),
      ("source_code", f.source.map .text), ("metrics", f.metrics.map Metrics.toWire),
      ("encoding", f.encoding.map .text), ("size_bytes", f.size.map wordToWire),
      ("functions", some (.list (f.functions.map fun fn => fn.toWireIn spell))),
      ("classes", some (.list (f.classes.map ClassOutline.toWire))),
      ("imports", some (.list (f.imports.map ImportOutline.toWire)))]

/-- The file as a map. -/
def toWire (f : FileOutline) : Value := f.toWireIn fun _ => .standard

/-- Reads a file. -/
def ofWire? (v : Value) : Option FileOutline := do
  let m ← v.members? [["file_path"], ["language"], ["source_code"], ["metrics"], ["encoding"],
    ["size_bytes"], ["functions"], ["classes"], ["imports"]]
  let path ← m.orElse "file_path" Value.text? "unknown"
  let language ← m.orElse "language" Value.text? unknownLanguage
  let source ← m.optional "source_code" Value.text?
  let metrics ← m.optional "metrics" Metrics.ofWire?
  let encoding ← m.optional "encoding" Value.text?
  let size ← m.optional "size_bytes" Value.word64?
  let functions ← m.orElse "functions" (Value.list? FunctionOutline.ofWire?) []
  let classes ← m.orElse "classes" (Value.list? ClassOutline.ofWire?) []
  let imports ← m.orElse "imports" (Value.list? ImportOutline.ofWire?) []
  pure ⟨path, language, source, metrics, encoding, size, functions, classes, imports⟩

/-- The file with what it comes to, for a reader. The lines of code may be any word, so they
are given as a text. -/
def summary (f : FileOutline) : Value :=
  .map
    [(.name "record", f.toWire), (.name "loc", .text (toString f.lines.toNat)),
      (.name "entities", .integer f.entityCount), (.name "calls", .integer f.callCount),
      (.name "methods", .list (f.classes.map fun c => .list (c.methods.map .text))),
      (.name "modules", .list (f.imports.map fun i => i.moduleName?.elim .null .text))]

end FileOutline

end ProgramGraph
