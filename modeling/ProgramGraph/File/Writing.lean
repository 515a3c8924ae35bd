import ProgramGraph.File.Directory

set_option autoImplicit false

/-! # Changes of a directory

Making directories, and writing and removing files. A change that the path does not allow leaves
the tree as it is, apart from directories made on the way. Writing where a file is changes what
that file holds; removing takes a name away, and what the file holds stays.
-/

namespace ProgramGraph

open ProgramGraph.Text

namespace Directory

/-- Makes the directories that the components of a path lead through from a place, as far as
they are missing. It ends at a file and at a name that is too long, and tells whether it came to
the end of the path. -/
def makeWay (d : Directory) (place : Place) : List String → Directory × Bool
  | [] => (d, true)
  | component :: rest =>
      if component = ".." then d.makeWay (around place) rest
      else if !FilePath.isName component then d.makeWay place rest
      else if maxNameBytes < component.utf8ByteSize then (d, false)
      else
        match place with
        | none => (d, false)
        | some names =>
            let inner := names ++ [component]
            match d.entry? inner with
            | some .directory => d.makeWay (some inner) rest
            | some _ => (d, false)
            | none =>
                makeWay { d with entries := d.entries.insert inner .directory } (some inner) rest

/-- Makes a directory at a path, and those above it; tells whether it is there now. The empty
path asks for nothing. A point at the end of a path makes nothing, and what it stands behind
must be there. -/
def makeDirectories (d : Directory) (path : FilePath) : Directory × Bool :=
  match start path with
  | .ok (place, pieces) =>
      if (pieces.filter (· != "")).getLast? = some "." then
        let made := (d.makeWay place path.components.dropLast).1
        (made, made.holdsDirectory path)
      else d.makeWay place path.components
  | .error _ => (d, path.text = "")

/-- The place that the last piece of a path names, in a directory that is there. -/
def slot? (d : Directory) (path : FilePath) : Option (List String) := do
  let (place, pieces) ← (start path).toOption
  let around ← (d.follow place (pieces.dropLast ++ ["."])).toOption
  let name ← pieces.getLast?
  if name != "" && FilePath.isName name && name.utf8ByteSize ≤ maxNameBytes then
    around.map (· ++ [name])
  else none

/-- Changes what a file holds. -/
def hold (d : Directory) (number : Nat) (content : FileContent) : Directory :=
  { d with contents := d.contents.insert number content }

/-- Places a new file where nothing stands, with its number. -/
def place (d : Directory) (names : List String) (content : FileContent) : Nat × Directory :=
  (d.next,
    { entries := d.entries.insert names (.file d.next)
      contents := d.contents.insert d.next content
      next := d.next + 1 })

/-- Writes a file, unless a directory stands there, and makes the directories above it. Nothing
is written where the path does not lead. -/
def write (d : Directory) (path : FilePath) (content : Bytes) : Directory :=
  let made := (d.makeDirectories path.parent).1
  match made.slot? path with
  | some names =>
      match made.entry? names with
      | some .directory => made
      | some (.file number) => made.hold number (.bytes content)
      | none => (made.place names (.bytes content)).2
  | none => made

/-- Removes the file at a path; tells whether there was one. -/
def remove (d : Directory) (path : FilePath) : Directory × Bool :=
  match d.locate path with
  | .ok (some names) =>
      if d.entry? names = some .directory then (d, false)
      else ({ d with entries := d.entries.erase names }, true)
  | _ => (d, false)

end Directory

end ProgramGraph
