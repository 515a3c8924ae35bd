import ProgramGraph.Query.Parser
import ProgramGraph.Property.Wire

set_option autoImplicit false

/-! # Queries as documents

What a query asks for, as data for a reader who does not know its text: the conditions one by
one, each with the word that joins it to those before and with what a store makes of it.
-/

namespace ProgramGraph

open ProgramGraph.Wire

/-- The name of the direction. -/
def Direction.name : Direction → String
  | .incoming => "in"
  | .outgoing => "out"

namespace Query

/-- What the condition asks for. -/
def Condition.members : Condition → List (Key × Value)
  | .attribute name op value =>
      [(.name "attribute", .text name), (.name "op", .text op.symbol),
        (.name "value", value.described),
        (.name "pushdown", op.comparison?.elim .null fun c => .text c.symbol)]
  | .related kind target =>
      [(.name "relation", .text (relationWord kind)), (.name "edge_type", .text kind.name),
        (.name "target", .text target), (.name "direction", .text (relationDirection kind).name)]

/-- The condition with the word that joins it to those before, as a map. -/
def Condition.toWire (connective : Option Connective) (c : Condition) : Value :=
  .map ((.name "join", connective.elim .null fun word => .text word.word) :: c.members)

/-- The conditions in their order. -/
def Conditions.toWire (cs : Conditions) : Value :=
  .list (cs.first.toWire none :: cs.rest.map fun (connective, c) => c.toWire (some connective))

/-- The query is what its own text denotes. -/
def isReadBack (q : Query) : Bool := (parse q.display).toOption == some q

/-- The query as a map. Counts may be any number, so they are given as texts. -/
def toWire (q : Query) : Value :=
  let count (n : Option Nat) : Value := n.elim .null fun n => .text (toString n)
  .map
    [(.name "type", .text q.kind), (.name "alias", q.asName.elim .null .text),
      (.name "where", q.conditions.elim .null Conditions.toWire),
      (.name "has_or", q.conditions.elim .null fun cs => .bool cs.hasOr),
      (.name "limit", count q.limit), (.name "offset", count q.offset),
      (.name "display", .text q.display), (.name "round_trip", .bool q.isReadBack)]

end Query

end ProgramGraph
