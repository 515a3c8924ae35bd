import ProgramGraph.File.Directory
import ProgramGraph.Json.Parser
import ProgramGraph.Outline.Wire
import ProgramGraph.Settings.Sync

set_option autoImplicit false

/-! # Reading outlines

A reader turns the files of a language into outlines. The text of a file is its outline in
JSON; where the file stands and, if the text does not say, its language come from the path.
Of several readers the first that accepts a path reads the file.
-/

namespace ProgramGraph

/-- A reader of the files of a language. -/
structure OutlineReader where
  language : String
  /-- The extensions of its files, with their point. -/
  extensions : List String
  settings : ReaderSettings
  deriving Repr, DecidableEq, Inhabited

namespace OutlineReader

/-- The reader reads files at such a path. -/
def accepts (r : OutlineReader) (path : FilePath) : Bool :=
  path.extension?.any fun ext => r.extensions.contains ("." ++ ext)

/-- The outline placed at a path: the path is noted in it, and an unknown language is told from
the path. -/
def placedAt (path : FilePath) (f : FileOutline) : FileOutline :=
  { f with
    path := path.text
    language := if f.language = unknownLanguage then path.language else f.language }

/-- The outline that the text of the file at a path denotes. -/
def readText (r : OutlineReader) (path : FilePath) (text : String) : Outcome FileOutline :=
  match (Json.parse? text).bind FileOutline.ofWire? with
  | none => .error (.file (.invalidRecord path.text))
  | some f =>
      let placed := placedAt path f
      .ok (if r.settings.includeDocs then placed else placed.withoutDocs)

/-- A problem at a path as a failure. -/
def atPath {α : Type} (path : FilePath) : Except ReadProblem α → Outcome α
  | .ok a => .ok a
  | .error why => .error (.file (.unreadable path.text why))

/-- The outline of the file at a path. A size and an encoding that its text does not give are
those of the file and of the settings. -/
def readFile (r : OutlineReader) (d : Directory) (path : FilePath) : Outcome FileOutline := do
  let size ← atPath path (d.size path)
  if r.settings.maxFileSize.toNat < size then
    .error (.file (.tooLarge path.text size))
  let text ← atPath path (d.readText path)
  let f ← r.readText path text
  pure { f with
    size := f.size.getD (UInt64.ofNat size)
    encoding := f.encoding.getD r.settings.defaultEncoding }

/-- The first of several readers that reads files at a path. -/
def first? (readers : List OutlineReader) (path : FilePath) : Option OutlineReader :=
  readers.find? fun r => r.accepts path

/-- The outline of the file at a path, by the first reader that accepts it. -/
def readWith (readers : List OutlineReader) (d : Directory) (path : FilePath) :
    Outcome FileOutline :=
  match first? readers path with
  | some r => r.readFile d path
  | none => .error (.file (.unsupported path.text path.language))

end OutlineReader

end ProgramGraph
