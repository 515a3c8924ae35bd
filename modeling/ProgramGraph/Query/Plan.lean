import ProgramGraph.Query.Syntax

set_option autoImplicit false

/-! # Query plans

The steps that answer a query. Without OR every condition must hold, so comparisons go into
the scan of the store, relations become steps of their own, and only LIKE is left to be asked
of each node. With OR all conditions are folded for each node of the kind.
-/

namespace ProgramGraph.Query

/-- One step of a plan. -/
inductive Step where
  /-- Reads the nodes of a kind that a filter accepts. -/
  | filteredScan (kind : NodeKind) (filter : Filter)
  /-- Reads every node of a kind. -/
  | kindScan (kind : NodeKind)
  /-- Keeps the nodes with an edge of a relation to or from a target. -/
  | relationFilter (relation : EdgeKind) (target : String)
  /-- Keeps the nodes for which so many conditions hold. -/
  | conditionFilter (conditions : Nat)
  deriving Repr

namespace Step

/-- The cost of the step, as a rough measure. -/
def cost : Step → Nat
  | .filteredScan .. => 100
  | .kindScan _ => 500
  | .relationFilter .. => 200
  | .conditionFilter _ => 0

/-- The name of the step. -/
def name : Step → String
  | .filteredScan .. => "filtered_scan"
  | .kindScan _ => "type_scan"
  | .relationFilter .. => "relation_filter"
  | .conditionFilter _ => "in_process_filter"

/-- What the step works on, in running text. -/
def argument : Step → String
  | .filteredScan kind filter => kind.name ++ ", " ++ toString filter.length ++ " conditions"
  | .kindScan kind => kind.name
  | .relationFilter relation target => relationWord relation ++ " '" ++ target ++ "'"
  | .conditionFilter conditions => toString conditions

/-- The step in running text. -/
def display (s : Step) : String := s.name ++ "(" ++ s.argument ++ ")"

end Step

/-- The steps of a query in their order. -/
abbrev Plan := List Step

namespace Plan

/-- The sum of the costs of the steps. -/
def cost (plan : Plan) : Nat := plan.foldr (fun step total => step.cost + total) 0

/-- The plan in running text. -/
def display (plan : Plan) : String :=
  " -> ".intercalate (plan.map Step.display) ++ " (cost " ++ toString plan.cost ++ ")"

end Plan

/-- The condition that a store can evaluate for a condition of a query. -/
def Condition.pushed? : Condition → Option Filter.Condition
  | .attribute name op value => op.comparison?.map fun comparison => ⟨name, comparison, value⟩
  | .related .. => none

/-- The condition is a comparison of texts by LIKE. -/
def Condition.isLike : Condition → Bool
  | .attribute _ .like _ => true
  | _ => false

/-- The step that a relation gives. -/
def Condition.relationStep? : Condition → Option Step
  | .attribute .. => none
  | .related relation target => some (.relationFilter relation target)

/-- The plan for conditions that must all hold. -/
def planAll (kind : NodeKind) (conditions : List Condition) : Plan :=
  let filter := conditions.filterMap Condition.pushed?
  let scan := if filter.isEmpty then Step.kindScan kind else .filteredScan kind filter
  let likes := conditions.countP Condition.isLike
  [scan] ++ conditions.filterMap Condition.relationStep? ++
    (if likes = 0 then [] else [.conditionFilter likes])

/-- The plan of a query that looks for nodes of a kind. -/
def plan (q : Query) (kind : NodeKind) : Plan :=
  if q.hasOr then [.kindScan kind, .conditionFilter q.conditionList.length]
  else planAll kind q.conditionList

end ProgramGraph.Query
