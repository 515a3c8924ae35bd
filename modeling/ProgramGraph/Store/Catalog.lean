import ProgramGraph.File.Database
import ProgramGraph.Store.Action

set_option autoImplicit false

/-! # Open stores and what outlives them

A store over a named byte map, or over a database file, shares its content with every other
store that is opened on the same one, and the content is still there when the store is closed.
A catalog keeps these contents and the open stores. An open store is known by its number. It
works on the file it was opened on, whatever the name of that file leads to by now.
-/

namespace ProgramGraph

/-- Where the content of a store is kept. -/
inductive Home where
  /-- In the store itself. -/
  | itself
  /-- In the byte map with a name. -/
  | memory (name : String)
  /-- In a database file. -/
  | database (file : DatabaseFile)
  deriving Repr, DecidableEq, Inhabited

/-- Shared contents, and the open stores with their homes. -/
structure Catalog where
  memories : Std.TreeMap String ByteMap
  /-- The rows in database files, by the numbers of the files. -/
  databases : Std.TreeMap Nat Rows
  stores : Array (Store × Home)
  deriving Inhabited

namespace Catalog

/-- The catalog without contents and stores. -/
def empty : Catalog := ⟨∅, ∅, #[]⟩

/-- The byte map with a name; one that was never written is empty. -/
def memory (c : Catalog) (name : String) : ByteMap := c.memories[name]?.getD ∅

/-- Puts a byte map under a name. -/
def putMemory (c : Catalog) (name : String) (m : ByteMap) : Catalog :=
  { c with memories := c.memories.insert name m }

/-- An open store, with the content that its home has now, and the state of its file. -/
def store? (c : Catalog) (files : Directory) (number : Nat) : Option Store :=
  c.stores[number]?.map fun
    | (.keyed k, .memory name) => .keyed { k with entries := c.memory name }
    | (.table t, .database file) =>
        .table
          { t with
            rows := c.databases[file.number]?.getD .empty
            state := t.state.next (files.trouble? file) }
    | (s, _) => s

/-- Puts an open store back after work on it, and its content into its home. -/
def putStore (c : Catalog) (number : Nat) (s : Store) : Catalog :=
  match c.stores[number]? with
  | none => c
  | some (_, home) =>
      let c' := { c with stores := c.stores.setIfInBounds number (s, home) }
      match s, home with
      | .keyed k, .memory name => c'.putMemory name k.entries
      | .table t, .database file =>
          { c' with databases := c'.databases.insert file.number t.rows }
      | _, _ => c'

/-- Opens a store; its number is that of the stores opened before. -/
def add (c : Catalog) (s : Store) (home : Home) : Catalog × Nat :=
  ({ c with stores := c.stores.push (s, home) }, c.stores.size)

/-- Opens a keyed store over the byte map with a name. -/
def openKeyed (c : Catalog) (settings : KeyedSettings) (name : String) (now : UInt64) :
    Catalog × Nat :=
  c.add (.keyed (.ofEntries settings ∅ now)) (.memory name)

/-- Opens a table store: a private one, or one over a database file, which is made if it is not
there. A new file has no rows. -/
def openTable (c : Catalog) (settings : TableSettings) (files : Directory) :
    Outcome ((Catalog × Nat) × Directory) :=
  let store := Store.table (.ofRows settings .empty)
  if settings.database = TableSettings.inMemory.database || settings.database = "" then
    .ok (c.add store .itself, files)
  else
    match files.openDatabase ⟨settings.database⟩ with
    | .error .noPlace =>
        .error (.storage ("Failed to open SQLite database " ++ settings.database))
    | .error .foreign => .error (.storage "SQLite: create schema: file is not a database")
    | .error .noJournal =>
        .error (.storage "SQLite: create schema: unable to open database file")
    | .ok (file, fresh, files) =>
        let c := if fresh then { c with databases := c.databases.erase file.number } else c
        .ok (c.add store (.database file), files)

end Catalog

end ProgramGraph
