import ProgramGraph.Query.Parser
import ProgramGraph.Query.Plan
import ProgramGraph.Query.Schema
import ProgramGraph.Store.Basic
import ProgramGraph.Text.Lowercase

set_option autoImplicit false

/-! # Answering queries

A query is answered by the steps of its plan. A scan reads a bounded number of nodes. The
answer is one page of the nodes that are left, and their number.
-/

namespace ProgramGraph.Query

/-- The number of nodes that a scan reads at most. -/
def scanLimit : Nat := 10000

/-- The nodes of a kind that a filter accepts, as many as a scan reads. -/
def scan (s : Store) (kind : NodeKind) (filter : Filter) : Outcome (List Node) :=
  s.findNodes (some kind) filter (some scanLimit) 0

/-- The text occurs in the other, in any case of letters. -/
def isLike (whole part : String) : Bool :=
  Text.containsText (Text.lowercase whole).toList (Text.lowercase part).toList

/-- An operator holds between a property and a value. -/
def Operator.holds (op : Operator) (actual : Option Property) (value : Property) : Bool :=
  match op with
  | .compare comparison => comparison.evaluate actual value
  | .like =>
      match actual with
      | none | some .null => false
      | some found => isLike found.display value.display

/-- The node has an edge of the relation whose far end matches the target. -/
def hasRelation (s : Store) (n : Node) (relation : EdgeKind) (target : String) : Outcome Bool :=
  match relationDirection relation with
  | .outgoing => do
      let edges ← s.edgesFrom n.id none (some relation)
      pure (edges.any fun e => targetMatches target e.target)
  | .incoming => do
      let edges ← s.edgesTo n.id (some relation)
      pure (edges.any fun e => targetMatches target e.source)

/-- The condition holds for a node. -/
def Condition.holds (s : Store) (n : Node) : Condition → Outcome Bool
  | .attribute name op value => .ok (op.holds (n.property? name) value)
  | .related relation target => hasRelation s n relation target

/-- The nodes for which a test holds. -/
def retain (holds : Node → Outcome Bool) : List Node → Outcome (List Node)
  | [] => .ok []
  | n :: rest => do
      let keep ← holds n
      let kept ← retain holds rest
      pure (if keep then n :: kept else kept)

/-- The conditions of a query that are asked of a node in the end: all of them, folded, if one
is joined by OR, and otherwise those with LIKE. -/
def holdsInProcess (s : Store) (q : Query) (n : Node) : Outcome Bool :=
  match q.conditions with
  | none => .ok true
  | some conditions =>
      if conditions.hasOr then conditions.fold (Condition.holds s n)
      else (conditions.toList.filter Condition.isLike).foldlM
        (fun acc c => do pure (acc && (← c.holds s n))) true

/-- The nodes after a step. -/
def runStep (s : Store) (q : Query) (nodes : List Node) : Step → Outcome (List Node)
  | .filteredScan kind filter => scan s kind filter
  | .kindScan kind => scan s kind []
  | .relationFilter relation target => retain (hasRelation s · relation target) nodes
  | .conditionFilter _ => retain (holdsInProcess s q) nodes

/-- The nodes after all steps of a plan. -/
def runPlan (s : Store) (q : Query) (plan : Plan) : Outcome (List Node) :=
  plan.foldlM (runStep s q) []

/-- The answer to a query. -/
structure Answer where
  /-- One page of the nodes found. -/
  nodes : List Node
  /-- The number of nodes found. -/
  total : Nat
  plan : Plan

/-- Answers a query. -/
def answer (s : Store) (q : Query) : Outcome Answer :=
  match NodeKind.ofText? q.kind with
  | none => .error (.query (.unknownKind q.kind) none)
  | some kind => do
      let plan := q.plan kind
      let found ← runPlan s q plan
      let rest := found.drop (q.offset.getD 0)
      pure ⟨q.limit.elim rest rest.take, found.length, plan⟩

/-- Answers a query that is checked against a schema first, if there is one. -/
def answerChecked (s : Store) (schema : Option Schema) (q : Query) : Outcome Answer := do
  if let some known := schema then
    let _ ← known.check q
  answer s q

/-- Answers the query that a text denotes. -/
def execute (s : Store) (schema : Option Schema) (text : String) : Outcome Answer := do
  answerChecked s schema (← parse text)

end ProgramGraph.Query
