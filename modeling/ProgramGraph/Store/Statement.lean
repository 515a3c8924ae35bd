import ProgramGraph.Edge.Kind
import ProgramGraph.Failure
import ProgramGraph.File.Database

set_option autoImplicit false

/-! # Statements to a database

A table store works on its database by statements. When the file of the database is in trouble a
statement fails, and the failure cites it: a short statement by its text, a long one by what it
is for. A file that has lost its name can still be read but not written, and a statement that
finds nothing to write is no writing. An overwritten file gives nothing at all. A statement takes
what it enters as parameters, of which there are only so many.
-/

namespace ProgramGraph

/-- A statement to a database. -/
structure Statement where
  /-- What a failure cites the statement as. -/
  citation : String
  /-- The table that is looked for first. -/
  table : String
  /-- What a failure cites the statement as if it is known beforehand that no table is there. -/
  preparation : String := citation
  deriving Repr, DecidableEq

/-- The state that a store finds its database file in. -/
structure DatabaseState where
  /-- What is wrong with the file. -/
  trouble : Option DatabaseTrouble
  /-- The store has found the file blank before. -/
  wasBlank : Bool
  deriving Repr, DecidableEq, Inhabited

namespace DatabaseState

/-- Nothing is wrong. -/
def sound : DatabaseState := ⟨none, false⟩

/-- The state that follows a state, with the file as it is now. A store that has found its file
blank looks for tables first, and does not come to see other content. -/
def next (s : DatabaseState) (trouble : Option DatabaseTrouble) : DatabaseState :=
  if s.trouble = some .blank then
    ⟨if trouble = some .foreign then some .blank else trouble, true⟩
  else ⟨trouble, false⟩

end DatabaseState

namespace Statement

/-! ## Outcomes -/

/-- The failure of a statement. -/
def failure (citation cause : String) : Failure :=
  .storage ("SQLite: " ++ citation ++ ": " ++ cause)

/-- What comes of a statement that reads. -/
def read (s : Statement) (state : DatabaseState) : Outcome Unit :=
  match state.trouble with
  | none | some .removed => .ok ()
  | some .foreign => .error (failure s.citation "file is not a database")
  | some .blank =>
      .error (failure (if state.wasBlank then s.preparation else s.citation)
        ("no such table: " ++ s.table))

/-- What comes of a statement that writes if it finds something to write. -/
def write (s : Statement) (state : DatabaseState) (found : Bool) : Outcome Unit :=
  if state.trouble = some .removed then
    if found then .error (failure s.citation "attempt to write a readonly database") else .ok ()
  else s.read state

/-! ## The statements -/

/-- The number of parameters that a statement may have. -/
def parameterLimit : UInt64 := 32766

/-- Enters nodes. -/
def insertNodes : Statement := { citation := "insert nodes", table := "nodes" }

/-- Enters edges. -/
def insertEdges : Statement := { citation := "insert edges", table := "edges" }

/-- Deletes the edges that touch a node. -/
def deleteTouching : Statement where
  citation := "DELETE FROM edges WHERE source = ?1 OR target = ?1"
  table := "edges"

/-- Deletes a node. -/
def deleteNode : Statement where
  citation := "DELETE FROM nodes WHERE id = ?1"
  table := "nodes"

/-- Deletes the edges between two nodes, of one relation or of all. -/
def deleteBetween (kind : Option EdgeKind) : Statement where
  citation :=
    "DELETE FROM edges WHERE source = ?1 AND target = ?2" ++ kind.elim "" fun _ => " AND type = ?3"
  table := "edges"

/-- Deletes all edges. -/
def deleteEdges : Statement := { citation := "DELETE FROM edges", table := "edges" }

/-- Reads a node. -/
def readNode : Statement where
  citation := "SELECT type, properties FROM nodes WHERE id = ?1"
  table := "nodes"

/-- Looks for a node. -/
def findNode : Statement where
  citation := "SELECT COUNT(*) FROM nodes WHERE id = ?"
  table := "nodes"

/-- Counts the rows of a table, of one type or of all. -/
def count {α : Type} (table : String) (kind : Option α) : Statement where
  citation := "SELECT COUNT(*) FROM " ++ table ++ kind.elim "" fun _ => " WHERE type = ?"
  table := table

/-- Counts the rows of a table by type. -/
def countByKind (table : String) : Statement where
  citation := "SELECT type, COUNT(*) FROM " ++ table ++ " GROUP BY type"
  table := table

/-- Reads edges by columns with given values. -/
def readEdges (columns : List String) : Statement where
  citation :=
    "SELECT source, target, type, properties FROM edges WHERE "
      ++ " AND ".intercalate (columns.map (· ++ " = ?")) ++ " ORDER BY id"
  table := "edges"

/-- Reads the nodes that a filter may accept. -/
def queryNodes : Statement where
  citation := "query nodes"
  table := "nodes"
  preparation := "prepare node query"

/-- Reads what a root reaches. -/
def load : Statement where
  citation := "load subgraph"
  table := "nodes"
  preparation := "prepare subgraph load"

end Statement

end ProgramGraph
