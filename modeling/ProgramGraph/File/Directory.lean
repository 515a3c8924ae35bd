import Std.Data.TreeMap
import ProgramGraph.Failure
import ProgramGraph.File.Path
import ProgramGraph.Text.Utf8

set_option autoImplicit false

/-! # Directories

A tree of files, as far as reading source files asks for it: what stands at a path, and why
nothing can be read there. Relative paths start at the top of the tree. Of what lies outside the
tree nothing is known but that the directories above the top are there.

A file is known by a number, and what it holds is kept under that number. A name only leads to
the number, so that a file whose name was taken away is still there for those who have it open.
-/

namespace ProgramGraph

open ProgramGraph.Text

/-- A place by the names that lead to it from the top, or somewhere outside the tree. -/
abbrev Place := Option (List String)

/-- What stands at a place. -/
inductive DirectoryEntry where
  /-- The file with a number. -/
  | file (number : Nat)
  | directory
  deriving Repr, DecidableEq

/-- What a file holds. -/
inductive FileContent where
  | bytes (content : Bytes)
  /-- The rows of a store. -/
  | database
  deriving Repr, DecidableEq

namespace FileContent

/-- The size of a database file with few rows, in bytes. -/
def databaseSize : Nat := 57344

/-- The size of what a file holds, in bytes. -/
def size : FileContent → Nat
  | .bytes content => content.length
  | .database => databaseSize

/-- The text that a file holds, if it is one. -/
def text? : FileContent → Option String
  | .bytes content => ofUtf8? content
  | .database => none

end FileContent

/-- The files and directories below a top directory. -/
structure Directory where
  /-- What stands at a place, by the names that lead to it. -/
  entries : Std.TreeMap (List String) DirectoryEntry
  /-- What every file holds, by its number. -/
  contents : Std.TreeMap Nat FileContent
  /-- The number of the next new file. -/
  next : Nat
  deriving Inhabited

namespace Directory

/-- The longest name that a file can have, in bytes. -/
def maxNameBytes : Nat := 255

/-- The longest path that can be looked up, in bytes. -/
def maxPathBytes : Nat := 4095

/-- The size that a directory has for a reader, in bytes. -/
def directorySize : Nat := 4096

/-- The directory without entries. -/
def empty : Directory := ⟨∅, ∅, 0⟩

/-- What stands at a place of the tree; the top is a directory. -/
def entry? (d : Directory) (names : List String) : Option DirectoryEntry :=
  if names.isEmpty then some .directory else d.entries[names]?

/-- What a file holds; one that was never written holds no bytes. -/
def content (d : Directory) (number : Nat) : FileContent :=
  d.contents[number]?.getD (.bytes [])

/-- What stands at a place. Outside the tree a path only comes to directories. -/
def at? (d : Directory) : Place → Option DirectoryEntry
  | some names => d.entry? names
  | none => some .directory

/-- The directory around a place, which for the top lies outside the tree. -/
def around : Place → Place
  | some (name :: names) => some (name :: names).dropLast
  | _ => none

/-- Follows the pieces of a path from a place, to a place where something stands. A file has
nothing behind it, not even the end of a path that ends with a slash. -/
def follow (d : Directory) (place : Place) : List String → Except ReadProblem Place
  | [] => if (d.at? place).isSome then .ok place else .error .missing
  | piece :: rest =>
      match d.at? place with
      | none => .error .missing
      | some (.file _) => .error .notDirectory
      | some .directory =>
          if piece = "" || piece = "." then d.follow place rest
          else if piece = ".." then d.follow (around place) rest
          else if maxNameBytes < piece.utf8ByteSize then .error .nameTooLong
          else
            match place with
            | some names => d.follow (some (names ++ [piece])) rest
            | none => .error .missing

/-- The place where a path starts, and its pieces. The empty path leads nowhere, and a path
that starts with a slash starts outside the tree. -/
def start (path : FilePath) : Except ReadProblem (Place × List String) :=
  let chars := path.text.toList
  if chars.contains '\x00' then .error .nulInName
  else if maxPathBytes < path.text.utf8ByteSize then .error .nameTooLong
  else if chars.isEmpty then .error .missing
  else
    .ok (if chars.head? = some '/' then none else some [],
      (FilePath.pieces chars).map String.ofList)

/-- The place that a path leads to. -/
def locate (d : Directory) (path : FilePath) : Except ReadProblem Place := do
  let (place, pieces) ← start path
  d.follow place pieces

/-- What stands at a path. -/
def look (d : Directory) (path : FilePath) : Except ReadProblem DirectoryEntry := do
  (d.at? (← d.locate path)).elim (.error .missing) .ok

/-- Something stands at the path. -/
def holds (d : Directory) (path : FilePath) : Bool := (d.look path).toOption.isSome

/-- A directory stands at the path. -/
def holdsDirectory (d : Directory) (path : FilePath) : Bool :=
  (d.look path).toOption == some .directory

/-- The size of what stands at a path. -/
def size (d : Directory) (path : FilePath) : Except ReadProblem Nat :=
  (d.look path).map fun
    | .file number => (d.content number).size
    | .directory => directorySize

/-- The text of the file at a path. -/
def readText (d : Directory) (path : FilePath) : Except ReadProblem String := do
  match ← d.look path with
  | .directory => .error .directory
  | .file number => (d.content number).text?.elim (.error .notText) .ok

end Directory

end ProgramGraph
