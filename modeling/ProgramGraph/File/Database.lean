import ProgramGraph.File.Writing

set_option autoImplicit false

/-! # Database files

A store keeps its rows in a file. A path leads to a place for the file if its directory exists,
and a file that is missing or blank is made a database. Once open, the file is known by its
number: it can lose its name or be overwritten while the store still works on it, and then the
store is in trouble.
-/

namespace ProgramGraph

/-- A file that holds so little counts as empty. -/
def FileContent.isBlank : FileContent → Bool
  | .bytes content => content.length ≤ 1
  | .database => false

/-- A database file as a store has it open. -/
structure DatabaseFile where
  /-- Where the file stood when it was opened. -/
  place : List String
  /-- The number of the file. -/
  number : Nat
  deriving Repr, DecidableEq, Inhabited

/-- Why a path gives no database. -/
inductive DatabaseProblem where
  /-- No file can stand there. -/
  | noPlace
  /-- A file with other content stands there. -/
  | foreign
  /-- The name is too long for the journal, the file beside it with a longer name. -/
  | noJournal
  deriving Repr, DecidableEq

/-- What has become of an open database file. -/
inductive DatabaseTrouble where
  /-- The file has lost its name. -/
  | removed
  /-- The file was overwritten with other content. -/
  | foreign
  /-- The file was overwritten and is blank. -/
  | blank
  deriving Repr, DecidableEq

namespace Directory

/-- What the name of a journal has behind that of its database. -/
def journalEnding : String := "-journal"

/-- The names behind one more component of the path of a database. Two points undo the name in
front of them even if nothing stands there; a file has nothing behind it. -/
def databaseStep? (d : Directory) (names : List String) (component : String) :
    Option (List String) :=
  if component = ".." then around (some names)
  else if component = "/" then none
  else if component = "." then some names
  else
    let inner := names ++ [component]
    match d.follow (some []) inner with
    | .ok _ | .error .missing => some inner
    | .error _ => none

/-- The place of a database file at a path, if one can be there: its directory exists. -/
def databasePlace? (d : Directory) (path : FilePath) : Option (List String) := do
  let _ ← (start path).toOption
  let names ← path.components.foldlM d.databaseStep? []
  if d.entry? names.dropLast = some .directory && d.entry? names != some .directory then
    some names
  else none

/-- The database file that is kept at a path, whether it is a new database, and the tree with
it. A blank file is made a new database, as is a missing one. -/
def openDatabase (d : Directory) (path : FilePath) :
    Except DatabaseProblem (DatabaseFile × Bool × Directory) :=
  match d.databasePlace? path with
  | none => .error .noPlace
  | some names =>
      let hasJournal := (names.getLastD "" ++ journalEnding).utf8ByteSize ≤ maxNameBytes
      match d.entry? names with
      | some (.file number) =>
          let content := d.content number
          if content = .database then .ok (⟨names, number⟩, false, d)
          else if !content.isBlank then .error .foreign
          else if hasJournal then .ok (⟨names, number⟩, true, d.hold number .database)
          else .error .noJournal
      | _ =>
          if hasJournal then
            let (number, d') := d.place names .database
            .ok (⟨names, number⟩, true, d')
          else .error .noJournal

/-- The trouble that an open database file is in. -/
def trouble? (d : Directory) (file : DatabaseFile) : Option DatabaseTrouble :=
  let content := d.content file.number
  if content.isBlank then some .blank
  else if content ≠ .database then some .foreign
  else if d.entry? file.place = some (.file file.number) then none
  else some .removed

end Directory

end ProgramGraph
