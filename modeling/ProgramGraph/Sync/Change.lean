import ProgramGraph.File.Path

set_option autoImplicit false

/-! # Changes of files

What happened to a file. Two changes that follow each other closely are one: a deletion among
them makes it a deletion, and anything else a modification.
-/

namespace ProgramGraph

/-- What happened to a file. -/
inductive Change where
  | create
  | modify
  | delete
  deriving Repr, DecidableEq, Inhabited

namespace Change

/-- The word for the change. -/
def name : Change → String
  | .create => "create"
  | .modify => "modify"
  | .delete => "delete"

/-- Every change with its word. -/
def named : List (String × Change) :=
  [("create", .create), ("modify", .modify), ("delete", .delete)]

/-- Two changes of one file as one. -/
def merge (earlier later : Change) : Change :=
  if earlier = .delete || later = .delete then .delete else .modify

/-- A change, and what it becomes by each of the changes after it. -/
def running (c : Change) : List Change → List Change
  | [] => [c]
  | next :: rest => c :: running (c.merge next) rest

end Change

/-- A change of the file at a path. -/
structure FileChange where
  path : FilePath
  change : Change
  deriving Repr, DecidableEq, Inhabited

/-- The change in running text. -/
def FileChange.display (c : FileChange) : String := c.change.name ++ " " ++ c.path.text

end ProgramGraph
