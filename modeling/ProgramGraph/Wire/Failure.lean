import ProgramGraph.Failure
import ProgramGraph.Wire.Value

set_option autoImplicit false

/-! # Failures on the wire

A failure is shown by the name of its class and by its words. The failure of a query also has
a place in the text of the query, or none.
-/

namespace ProgramGraph.Failure

open ProgramGraph.Wire

/-- The place in the text of a query, as one more member. -/
def place : Failure → List (Key × Value)
  | .query _ position => [(.name "position", position.elim .null fun n => .integer n)]
  | _ => []

/-- The failure as a map. -/
def toWire (f : Failure) : Value :=
  .map ([(.name "error", .text f.classify.name), (.name "message", .text f.message)] ++ f.place)

end ProgramGraph.Failure
