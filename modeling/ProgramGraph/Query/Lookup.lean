import ProgramGraph.Query.Execution

set_option autoImplicit false

/-! # Ready questions

Questions about the structure of a program that need no query text.
-/

namespace ProgramGraph.Query

/-- The number of callers that are reported at most. -/
def callersLimit : Nat := 100

/-- The number of complex functions that are reported at most. -/
def complexityLimit : Nat := 1000

/-- The nodes of a kind with an edge of a relation to a target. -/
def nodesWithEdgeTo (s : Store) (kind : NodeKind) (relation : EdgeKind) (target : String) :
    Outcome (List Node) := do
  let candidates ← scan s kind []
  retain (fun n => do
    let edges ← s.edgesFrom n.id none (some relation)
    pure (edges.any fun e => targetMatches target e.target)) candidates

/-- The functions that call a function. -/
def callers (s : Store) (function : String) : Outcome (List Node) := do
  let found ← nodesWithEdgeTo s .function .calls function
  pure (found.take callersLimit)

/-- The files that import a module. -/
def dependents (s : Store) (module : String) : Outcome (List Node) :=
  nodesWithEdgeTo s .file .imports module

/-- The functions with a complexity above a threshold. -/
def complexFunctions (s : Store) (threshold : Int64) : Outcome (List Node) :=
  s.findNodes (some .function) [⟨"complexity", .gt, .int threshold⟩] (some complexityLimit) 0

/-! ## Functions that nobody calls -/

/-- The function is entered from outside the program, as its name tells. -/
def isEntryPoint (n : Node) : Bool :=
  "main".toList.isPrefixOf n.name.toList || "__".toList.isPrefixOf n.name.toList

/-- The functions that no function calls, entry points apart. -/
def unusedFunctions (s : Store) : Outcome (List Node) := do
  let functions ← scan s .function []
  let called ← functions.foldlM (fun (acc : Std.TreeSet String) n => do
    let edges ← s.edgesFrom n.id none (some .calls)
    pure (edges.foldl (fun found e => found.insert e.target) acc)) ∅
  pure (functions.filter fun n => !called.contains n.id && !isEntryPoint n)

/-! ## Class hierarchies -/

/-- A class with the targets of its edges to base classes. -/
structure Derivation where
  node : Node
  bases : List String

/-- The names in a queue with their depths, names already looked up, and classes already
found. -/
structure HierarchySearch where
  queue : List (String × Nat)
  lookedUp : Std.TreeSet String
  found : Std.TreeSet String

/-- Looks up the names of the queue one after the other: the classes that derive from a name
and were not found before are found, and their own names join the queue one level deeper. A
name deeper than the bound, or looked up before, is passed over. -/
def descend (classes : List Derivation) (maxDepth : Nat) : Nat → HierarchySearch → List Node
  | 0, _ => []
  | steps + 1, search =>
      match search.queue with
      | [] => []
      | (name, depth) :: queue =>
          if maxDepth < depth || search.lookedUp.contains name then
            descend classes maxDepth steps { search with queue := queue }
          else
            let derived := (classes.filter fun c =>
              !search.found.contains c.node.id && c.bases.any (targetMatches name ·)).map
                Derivation.node
            derived ++ descend classes maxDepth steps
              { queue := queue ++ derived.map fun n => (n.qualifiedName, depth + 1)
                lookedUp := search.lookedUp.insert name
                found := derived.foldl (fun acc n => acc.insert n.id) search.found }

/-- The classes that derive from a class, breadth first, down to a depth. Every class puts its
name into the queue at most once, which bounds the steps. -/
def hierarchy (s : Store) (base : String) (maxDepth : Nat) : Outcome (List Node) := do
  let classes ← (← scan s .classDef []).mapM fun n => do
    let edges ← s.edgesFrom n.id none (some .inherits)
    pure (⟨n, edges.map Edge.target⟩ : Derivation)
  pure (descend classes maxDepth (classes.length + 1) ⟨[(base, 0)], ∅, ∅⟩)

end ProgramGraph.Query
