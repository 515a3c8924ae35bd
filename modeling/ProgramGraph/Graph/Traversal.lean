import ProgramGraph.Graph.Basic

set_option autoImplicit false

/-! # Traversals

Walks through a graph from a start node, breadth first and depth first. Each visited node but
the start is found along an edge of its own, so a walk takes at most one step more than the
graph has edges.
-/

namespace ProgramGraph.Graph

/-- A step from this depth would exceed the bound. -/
def atBound (maxDepth : Option Nat) (depth : Nat) : Bool := maxDepth.any fun bound => bound ≤ depth

/-- The members of a list not seen before, each once, and what has been seen with them. -/
def discover (seen : Std.TreeSet String) : List String → List String × Std.TreeSet String
  | [] => ([], seen)
  | id :: rest =>
      if seen.contains id then discover seen rest
      else
        let (fresh, after) := discover (seen.insert id) rest
        (id :: fresh, after)

/-- Visits the nodes of a queue in order. The unseen neighbours of a node join the queue at
its end, one level deeper. -/
def walkBreadth (next : String → List String) (maxDepth : Option Nat) :
    Nat → List (String × Nat) → Std.TreeSet String → List String
  | 0, _, _ => []
  | _, [], _ => []
  | steps + 1, (id, depth) :: queue, seen =>
      if atBound maxDepth depth then id :: walkBreadth next maxDepth steps queue seen
      else
        let (fresh, after) := discover seen (next id)
        id :: walkBreadth next maxDepth steps (queue ++ fresh.map (·, depth + 1)) after

/-- Visits the node on top of a stack unless it was visited before. Its unvisited neighbours
go on top of the stack, one level deeper. -/
def walkDepth (next : String → List String) (maxDepth : Option Nat) :
    Nat → List (String × Nat) → Std.TreeSet String → List String
  | 0, _, _ => []
  | _, [], _ => []
  | steps + 1, (id, depth) :: stack, visited =>
      if visited.contains id then walkDepth next maxDepth steps stack visited
      else
        let visited := visited.insert id
        if atBound maxDepth depth then id :: walkDepth next maxDepth steps stack visited
        else
          let above := (next id).filter fun n => !visited.contains n
          id :: walkDepth next maxDepth steps (above.map (·, depth + 1) ++ stack) visited

/-- The number of steps that no walk through the graph exceeds. -/
def stepBound (g : Graph) : Nat := g.edges.size + 1

/-- The nodes reachable from `start`, breadth first: `start`, its neighbours by identifier,
theirs, and so on up to a depth if one is given. -/
def bfs (g : Graph) (start : String) (direction : Direction) (maxDepth : Option Nat)
    (kinds : Option (List EdgeKind)) : Outcome (List String) :=
  if g.hasNode start then
    .ok (walkBreadth (g.neighbors · direction kinds) maxDepth g.stepBound [(start, 0)]
      ((∅ : Std.TreeSet String).insert start))
  else .error (.nodeMissing start)

/-- The nodes reachable from `start`, depth first: of several neighbours the one with the
least identifier is followed first. -/
def dfs (g : Graph) (start : String) (direction : Direction) (maxDepth : Option Nat)
    (kinds : Option (List EdgeKind)) : Outcome (List String) :=
  if g.hasNode start then
    .ok (walkDepth (g.neighbors · direction kinds) maxDepth g.stepBound [(start, 0)] ∅)
  else .error (.nodeMissing start)

end ProgramGraph.Graph
