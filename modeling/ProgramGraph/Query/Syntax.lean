import ProgramGraph.Graph.Basic
import ProgramGraph.Query.Token

set_option autoImplicit false

/-! # Queries

A query asks for the nodes of a kind that meet some conditions, one page of them. Conditions
are joined by AND and OR without precedence: they are taken strictly from left to right.
-/

namespace ProgramGraph

namespace Query

/-- One condition of a query. -/
inductive Condition where
  /-- A property compared with a value. -/
  | attribute (name : String) (op : Operator) (value : Property)
  /-- An edge to or from a node whose identifier ends with the target. -/
  | related (kind : EdgeKind) (target : String)
  deriving Repr, BEq, Inhabited

/-- How a condition is joined to those before it. -/
inductive Connective where
  | and
  | or
  deriving Repr, DecidableEq

namespace Connective

/-- The word for the connective. -/
def word : Connective → String
  | .and => "AND"
  | .or => "OR"

/-- The result so far joined with the next. -/
def join : Connective → Bool → Bool → Bool
  | .and, acc, next => acc && next
  | .or, acc, next => acc || next

end Connective

/-- A first condition, and more of them with their connectives. -/
structure Conditions where
  first : Condition
  rest : List (Connective × Condition)
  deriving Repr, BEq

namespace Conditions

/-- The conditions in their order. -/
def toList (cs : Conditions) : List Condition := cs.first :: cs.rest.map Prod.snd

/-- Some condition is joined by OR. -/
def hasOr (cs : Conditions) : Bool := cs.rest.any fun (connective, _) => connective = .or

/-- The conditions joined from left to right. Every one of them is asked for. -/
def fold (cs : Conditions) (holds : Condition → Outcome Bool) : Outcome Bool := do
  cs.rest.foldlM (fun acc (connective, c) => do pure (connective.join acc (← holds c)))
    (← holds cs.first)

end Conditions

end Query

/-- A query. -/
structure Query where
  /-- The kind of node, as written. -/
  kind : String
  /-- The name behind AS. -/
  asName : Option String
  conditions : Option Query.Conditions
  limit : Option Nat
  offset : Option Nat
  deriving Repr, BEq

namespace Query

/-- The conditions in their order. -/
def conditionList (q : Query) : List Condition := q.conditions.elim [] Conditions.toList

/-- Some condition is joined by OR. -/
def hasOr (q : Query) : Bool := q.conditions.any Conditions.hasOr

/-- The direction in which a relation is followed from the node that is looked for: CONTAINS
asks for what contains it, every other relation leads out of it. -/
def relationDirection : EdgeKind → Direction
  | .contains => .incoming
  | _ => .outgoing

/-- The identifier ends with the target, or the target is a star. -/
def targetMatches (target id : String) : Bool :=
  target == "*" || target.toList.isSuffixOf id.toList

/-! ## Printing -/

/-- The condition as it is written. -/
def Condition.display : Condition → String
  | .attribute name op (.text s) => name ++ " " ++ op.symbol ++ " " ++ quoted s
  | .attribute name op value => name ++ " " ++ op.symbol ++ " " ++ value.display
  | .related kind target => relationWord kind ++ " " ++ quoted target

/-- The conditions as they are written. -/
def Conditions.display (cs : Conditions) : String :=
  cs.rest.foldl (fun acc (connective, c) => acc ++ " " ++ connective.word ++ " " ++ c.display)
    cs.first.display

/-- The query as it is written. -/
def display (q : Query) : String :=
  "FIND " ++ q.kind ++ q.asName.elim "" (" AS " ++ ·) ++
    q.conditions.elim "" (fun cs => " WHERE " ++ cs.display) ++
    q.limit.elim "" (fun n => " LIMIT " ++ toString n) ++
    q.offset.elim "" (fun n => " OFFSET " ++ toString n)

end Query

end ProgramGraph
