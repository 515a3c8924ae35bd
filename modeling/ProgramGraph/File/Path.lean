import ProgramGraph.Text.Ascii

set_option autoImplicit false

/-! # Paths of files

A path is kept as it was given and understood as a list of components. Repeated and trailing
slashes and points in the middle make no component; a slash in front does, and so does a point
in front of a relative path. Two paths name the same place if their components are equal.
-/

namespace ProgramGraph

/-- A path as it was given. -/
structure FilePath where
  text : String
  deriving Repr, DecidableEq, Inhabited

namespace FilePath

/-- The pieces between slashes. -/
def pieces : List Char → List (List Char)
  | [] => [[]]
  | '/' :: rest => [] :: pieces rest
  | c :: rest =>
      match pieces rest with
      | [] => [[c]]
      | piece :: more => (c :: piece) :: more

/-- The components: a slash for the root, a point for the present directory at the front, two
points for the parent, and names. -/
def components (path : FilePath) : List String :=
  let chars := path.text.toList
  let names := (pieces chars).filter fun piece => !piece.isEmpty && piece != ['.']
  let front :=
    match pieces chars with
    | ['.'] :: _ => ["."]
    | [] :: _ :: _ => ["/"]
    | _ => []
  front ++ names.map String.ofList

/-- The component is the name of a file or directory. -/
def isName (component : String) : Bool :=
  component != "/" && component != "." && component != ".."

/-- The paths name the same place. -/
def same (a b : FilePath) : Bool := a.components == b.components

/-- The last component, if it is a name. -/
def fileName? (path : FilePath) : Option String := path.components.getLast?.filter isName

/-- What stands behind the last point of the file name. A point in front of all else does not
count. -/
def extension? (path : FilePath) : Option String :=
  path.fileName?.bind fun name =>
    let reversed := name.toList.reverse
    let stem := (reversed.dropWhile (· != '.')).drop 1
    if stem.isEmpty then none else some (String.ofList (reversed.takeWhile (· != '.')).reverse)

/-- The path with the given components. -/
def ofComponents : List String → FilePath
  | "/" :: names => ⟨"/" ++ "/".intercalate names⟩
  | names => ⟨"/".intercalate names⟩

/-- The path of the directory around the path, without the last component. -/
def parent (path : FilePath) : FilePath := ofComponents path.components.dropLast

/-- The components below a root, or all of them if the path is not below the root. -/
def below (path root : FilePath) : List String :=
  if root.components.isPrefixOf path.components then
    path.components.drop root.components.length
  else path.components

end FilePath

end ProgramGraph
