import ProgramGraph.Text.Ascii

set_option autoImplicit false

/-! # Kinds of edges

The six relations between program entities. Their order is the order of their declaration.
-/

namespace ProgramGraph

/-- A relation between two program entities. -/
inductive EdgeKind where
  /-- A parent contains a child: a file its functions. -/
  | contains
  /-- A function calls a function. -/
  | calls
  /-- A class inherits from a class. -/
  | inherits
  /-- A file imports a module. -/
  | imports
  /-- An entity reads or writes another. -/
  | references
  /-- A scope defines an entity. -/
  | defines
  deriving Repr, DecidableEq, Inhabited

namespace EdgeKind

/-- Every relation, in the order of their declaration. -/
def all : List EdgeKind := [.contains, .calls, .inherits, .imports, .references, .defines]

/-- The name of the relation. -/
def name : EdgeKind → String
  | .contains => "contains"
  | .calls => "calls"
  | .inherits => "inherits"
  | .imports => "imports"
  | .references => "references"
  | .defines => "defines"

/-- Every relation with its name. -/
def named : List (String × EdgeKind) := all.map fun kind => (kind.name, kind)

/-- The relation with a name, in any case of letters. -/
def ofText? (text : String) : Option EdgeKind :=
  all.find? fun kind => Text.equalIgnoringAsciiCase kind.name text

/-- The place of the relation in the order of declaration. -/
def rank : EdgeKind → Nat
  | .contains => 0
  | .calls => 1
  | .inherits => 2
  | .imports => 3
  | .references => 4
  | .defines => 5

/-- Relations are told apart by their rank. -/
theorem eq_of_rank_eq {a b : EdgeKind} (h : a.rank = b.rank) : a = b := by
  cases a <;> cases b <;> simp_all [rank]

/-- Relations in the order of their declaration. -/
instance : Ord EdgeKind := ⟨fun a b => compare a.rank b.rank⟩

end EdgeKind

end ProgramGraph
