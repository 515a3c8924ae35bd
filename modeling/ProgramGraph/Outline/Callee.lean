import Std.Data.TreeMap
import ProgramGraph.Node.Identifier

set_option autoImplicit false

/-! # What a call refers to

The name in a call stands for a function of the same file, or else for a function that its
language provides, or else for something outside. What a name stands for is remembered for
each file.
-/

namespace ProgramGraph

/-- What a name in a call stands for, with the identifier of its node. -/
inductive Callee where
  /-- A function of the same file. -/
  | inFile (id : String)
  /-- A function that the language provides. -/
  | builtin (id : String)
  /-- Anything else. -/
  | external (id : String)
  deriving Repr, DecidableEq, Inhabited

namespace Callee

/-- The identifier of the node. -/
def id : Callee → String
  | .inFile id | .builtin id | .external id => id

/-- The word for where a callee outside the file comes from. -/
def origin? : Callee → Option String
  | .inFile _ => none
  | .builtin _ => some "builtin"
  | .external _ => some "external"

/-- The functions that Python, Go and Java provide. -/
def builtins : List String :=
  ["print", "len", "str", "int", "float", "bool", "list", "dict", "set", "tuple", "range",
    "enumerate", "zip", "map", "filter", "sorted", "reversed", "open", "input", "type",
    "isinstance", "hasattr", "getattr", "setattr", "min", "max", "sum", "abs", "round", "pow",
    "make", "new", "append", "copy", "delete", "cap", "panic", "recover", "close",
    "toString", "equals", "hashCode", "println"]

/-- A language provides a function of this name. -/
def isBuiltin (name : String) : Bool := builtins.contains name

/-- The callee of a name, given the functions of the file by name. -/
def ofName (inFile : Std.TreeMap String String) (name : String) : Callee :=
  match inFile[name]? with
  | some id => .inFile id
  | none =>
      if isBuiltin name then .builtin (nodeId .function ("builtin." ++ name) none)
      else .external (nodeId .function ("external." ++ name) none)

end Callee

/-- A name in a call in the file at a path. -/
structure CallKey where
  path : String
  name : String
  deriving Repr, DecidableEq, Inhabited

/-- Calls are compared by path and then by name. -/
instance : Ord CallKey where
  compare := compareLex (compareOn CallKey.path) (compareOn CallKey.name)

instance : Std.TransOrd CallKey :=
  inferInstanceAs (Std.TransCmp (compareLex (compareOn CallKey.path) (compareOn CallKey.name)))

instance : Std.LawfulEqOrd CallKey where
  eq_of_compare {a b} h := by
    obtain ⟨hp, hn⟩ := Ordering.then_eq_eq.1 h
    have hp := Std.LawfulEqOrd.eq_of_compare hp
    have hn := Std.LawfulEqOrd.eq_of_compare hn
    cases a
    cases b
    simp_all

/-- The callees found so far. -/
abbrev CalleeCache := Std.TreeMap CallKey Callee

/-- The callee of a name: the one found before, or else the one found now, which is
remembered. -/
def CalleeCache.resolve (inFile : Std.TreeMap String String) (path name : String)
    (cache : CalleeCache) : Callee × CalleeCache :=
  match cache[(⟨path, name⟩ : CallKey)]? with
  | some callee => (callee, cache)
  | none =>
      let callee := Callee.ofName inFile name
      (callee, cache.insert ⟨path, name⟩ callee)

end ProgramGraph
