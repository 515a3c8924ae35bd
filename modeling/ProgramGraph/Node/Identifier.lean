import ProgramGraph.Digest.Md5
import ProgramGraph.Node.Kind

set_option autoImplicit false

/-! # Identifiers of nodes

A node's identifier is computed from what it stands for, so that every build of a file gives
its entities the same identifiers. It is the kind, a colon, and the qualified name, which has
the path of the file and a colon in front where the entity belongs to a file. What stands
behind the kind is cut at a length; a digest of the whole keeps cut names apart.
-/

namespace ProgramGraph

/-- The longest name that is not cut, in characters. -/
def maxNameLength : Nat := 200

/-- The number of characters that a cut name keeps. -/
def keptNameLength : Nat := 180

/-- A name of more than 200 characters is cut to 180 of them, three points and the first eight
digits of its digest. -/
def shortenName (name : String) : String :=
  if name.length ≤ maxNameLength then name
  else
    String.ofList (name.toList.take keptNameLength ++ ['.', '.', '.'] ++
      (Digest.Md5.hexDigest name).take 8)

/-- The name with the path of its file in front, if there is a path. -/
def scopedName (qualifiedName : String) (path : Option String) : String :=
  match path with
  | some p => if p.isEmpty then qualifiedName else p ++ ":" ++ qualifiedName
  | none => qualifiedName

/-- The identifier of the node of a kind with a qualified name. -/
def nodeId (kind : NodeKind) (qualifiedName : String) (path : Option String) : String :=
  kind.name ++ ":" ++ shortenName (scopedName qualifiedName path)

end ProgramGraph
