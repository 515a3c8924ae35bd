import ProgramGraph.Failure
import ProgramGraph.Property.Value

set_option autoImplicit false

/-! # Reading typed fields out of properties

Nodes and edges have typed fields that travel as properties. `Taking α` takes such fields out
of a property map one after the other; what nobody takes is left over as extra properties. A
field that is absent or null has no value, and one of another shape fails.
-/

namespace ProgramGraph

/-- A step that takes fields out of properties on behalf of the named owner. -/
abbrev Taking (α : Type) := String → Properties → Outcome (α × Properties)

namespace Taking

/-- Takes a field with the given reading of its value. -/
def field {α : Type} (expected : Expected) (read : Property → Option α) (key : String) :
    Taking (Option α) := fun owner props =>
  match props[key]? with
  | none | some .null => .ok (none, props.erase key)
  | some value =>
      match read value with
      | some a => .ok (some a, props.erase key)
      | none => .error (.wrongProperty owner key expected value.kindName)

/-- Takes a text. -/
def text : String → Taking (Option String) :=
  field .text fun | .text s => some s | _ => none

/-- Takes an integer. -/
def int : String → Taking (Option Int64) :=
  field .integer fun | .int n => some n | _ => none

/-- Takes a truth value. -/
def bool : String → Taking (Option Bool) :=
  field .bool fun | .bool b => some b | _ => none

/-- Takes a list of texts. -/
def texts : String → Taking (Option (List String)) :=
  field .texts fun | .texts items => some items | _ => none

/-- Takes nothing. -/
def pure {α : Type} (a : α) : Taking α := fun _ props => .ok (a, props)

/-- One step after the other. -/
def bind {α β : Type} (first : Taking α) (next : α → Taking β) : Taking β := fun owner props =>
  match first owner props with
  | .ok (a, rest) => next a owner rest
  | .error failure => .error failure

instance : Monad Taking where
  pure := pure
  bind := bind

end Taking

/-- Fields of a core as properties. -/
abbrev Fields := List (String × Property)

namespace Fields

/-- A field that may have no value, and then is left out. -/
def optional {α : Type} (key : String) (wrap : α → Property) : Option α → Fields
  | some a => [(key, wrap a)]
  | none => []

/-- The properties with the fields put over them. -/
def putOver (fields : Fields) (props : Properties) : Properties :=
  fields.foldl (fun acc (key, value) => acc.insert key value) props

end Fields

end ProgramGraph
