import Std.Data.TreeMap
import ProgramGraph.Decimal.Binary64
import ProgramGraph.Decimal.Reader
import ProgramGraph.Decimal.Style
import ProgramGraph.Text.Blank

set_option autoImplicit false

/-! # Properties

Nodes and edges carry properties: scalars and lists of texts, never nested data, so that every
store can keep and compare them. A comparison coerces: where both sides have a number view
they compare as numbers, otherwise as texts.
-/

namespace ProgramGraph

/-- The value of a property. -/
inductive Property where
  /-- Present without a value. -/
  | null
  | bool (b : Bool)
  | int (n : Int64)
  | float (x : Binary64)
  | text (s : String)
  | texts (items : List String)
  deriving Repr, Inhabited, BEq

/-- The number and the float comparison of two floats: no order if one of them is no number. -/
def Float.order? (x y : Float) : Option Ordering :=
  if x < y then some .lt
  else if x == y then some .eq
  else if y < x then some .gt
  else none

namespace Property

/-- The name of the value's kind. -/
def kindName : Property → String
  | .null => "null"
  | .bool _ => "bool"
  | .int _ => "int"
  | .float _ => "float"
  | .text _ => "string"
  | .texts _ => "string list"

/-- The value in running text. -/
def display : Property → String
  | .null => "null"
  | .bool b => if b then "true" else "false"
  | .int n => toString n.toInt
  | .float x => Decimal.plain.render x.toFloat
  | .text s => s
  | .texts items => "[" ++ ", ".intercalate items ++ "]"

/-- The number view. A text has one if it reads as a number, blanks around it ignored. -/
def number? : Property → Option Float
  | .int n => some n.toFloat
  | .float x => some x.toFloat
  | .text s => Decimal.read? (Text.trimBlank s.toList)
  | _ => none

/-- The value takes part in an order: it is neither null nor a list. -/
def isOrdered : Property → Bool
  | .null | .texts _ => false
  | _ => true

/-- The order of two values, as numbers if both have a number view and as texts otherwise. -/
def order? (a b : Property) : Option Ordering :=
  if a.isOrdered && b.isOrdered then
    match a.number?, b.number? with
    | some x, some y => Float.order? x y
    | _, _ => some (compare a.display b.display)
  else none

/-- Equality up to coercion; lists are equal item by item, and null only to itself. -/
def looselyEquals (a b : Property) : Bool :=
  match a, b with
  | .texts xs, .texts ys => xs == ys
  | .null, .null => true
  | _, _ => a.order? b == some .eq

/-- The value is an integer or a float. -/
def isNumeric : Property → Bool
  | .int _ | .float _ => true
  | _ => false

/-- A value for an optional property: null if there is none. -/
def ofOption {α : Type} (wrap : α → Property) : Option α → Property
  | some a => wrap a
  | none => .null

end Property

/-- Properties by name, in the order of the names. -/
abbrev Properties := Std.TreeMap String Property

namespace Properties

/-- The entries of `other` put over those of `base`. -/
def overlay (base other : Properties) : Properties :=
  other.foldl (fun acc key value => acc.insert key value) base

/-- The two maps have the same names with equal values. -/
def same (a b : Properties) : Bool := a.toList == b.toList

/-- A text property. -/
def text? (props : Properties) (key : String) : Option String :=
  match props[key]? with
  | some (.text s) => some s
  | _ => none

/-- An integer property. -/
def int? (props : Properties) (key : String) : Option Int64 :=
  match props[key]? with
  | some (.int n) => some n
  | _ => none

/-- A float property. -/
def float? (props : Properties) (key : String) : Option Float :=
  match props[key]? with
  | some (.float x) => some x.toFloat
  | _ => none

/-- A truth value. -/
def bool? (props : Properties) (key : String) : Option Bool :=
  match props[key]? with
  | some (.bool b) => some b
  | _ => none

/-- A property that is a list of texts. -/
def texts? (props : Properties) (key : String) : Option (List String) :=
  match props[key]? with
  | some (.texts items) => some items
  | _ => none

end Properties

end ProgramGraph
