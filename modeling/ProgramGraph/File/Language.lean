import ProgramGraph.File.Path
import ProgramGraph.Text.Lowercase

set_option autoImplicit false

/-! # Languages of files

The language of a source file, told from its extension in any case of letters.
-/

namespace ProgramGraph

/-- The word for a language that is not known. -/
def unknownLanguage : String := "unknown"

/-- The languages by extension in lower case. -/
def languages : List (String × String) :=
  [("py", "python"), ("go", "go"), ("java", "java"), ("js", "javascript"), ("jsx", "javascript"),
    ("ts", "typescript"), ("tsx", "typescript"), ("c", "c"), ("h", "c"), ("cpp", "cpp"),
    ("hpp", "cpp")]

/-- The language of the file at a path. -/
def FilePath.language (path : FilePath) : String :=
  (path.extension?.bind fun ext => languages.lookup (Text.lowercase ext)).getD unknownLanguage

end ProgramGraph
