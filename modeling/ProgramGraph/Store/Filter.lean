import ProgramGraph.Json.Printer
import ProgramGraph.Node.Basic
import ProgramGraph.Property.Wire

set_option autoImplicit false

/-! # Filters

A filter is a conjunction of conditions on properties. A missing or null property meets no
condition. Where either side of a comparison is a number, both are taken as numbers, and there
is no order if one of them is none; otherwise values are compared as texts.

In JSON a filter is an object. A plain value under a name asks for that value; an object under
a name gives operators with their values.
-/

namespace ProgramGraph

open ProgramGraph.Wire

/-- The operator of a comparison. -/
inductive Comparison where
  | eq
  | ne
  | gt
  | ge
  | lt
  | le
  deriving Repr, DecidableEq, Inhabited

namespace Comparison

/-- Every operator. -/
def all : List Comparison := [.eq, .ne, .gt, .ge, .lt, .le]

/-- The operator as a sign. -/
def symbol : Comparison → String
  | .eq => "="
  | .ne => "!="
  | .gt => ">"
  | .ge => ">="
  | .lt => "<"
  | .le => "<="

/-- The name of the operator in the JSON form. -/
def operatorName : Comparison → String
  | .eq => "$eq"
  | .ne => "$ne"
  | .gt => "$gt"
  | .ge => "$gte"
  | .lt => "$lt"
  | .le => "$lte"

/-- The operator with a name. -/
def ofOperatorName? (name : String) : Option Comparison :=
  all.find? fun op => op.operatorName = name

/-- The order of an actual and an expected value. One number makes it an order of numbers. -/
def order? (actual expected : Property) : Option Ordering :=
  if actual.isNumeric || expected.isNumeric then
    match actual.number?, expected.number? with
    | some x, some y => Float.order? x y
    | _, _ => none
  else actual.order? expected

/-- An actual value equals an expected one: lists item by item, all else by its order. -/
def equal (actual expected : Property) : Bool :=
  match actual, expected with
  | .texts _, _ | _, .texts _ => actual.looselyEquals expected
  | _, _ => order? actual expected == some .eq

/-- The operator holds between a value that is there and an expected one. -/
def holds (op : Comparison) (actual expected : Property) : Bool :=
  match op with
  | .eq => equal actual expected
  | .ne => !equal actual expected
  | .gt => order? actual expected == some .gt
  | .ge => order? actual expected == some .gt || order? actual expected == some .eq
  | .lt => order? actual expected == some .lt
  | .le => order? actual expected == some .lt || order? actual expected == some .eq

/-- The operator holds for a property, which fails if it is missing or null. -/
def evaluate (op : Comparison) (actual : Option Property) (expected : Property) : Bool :=
  match actual with
  | none | some .null => false
  | some value => op.holds value expected

end Comparison

/-- One condition of a filter. -/
structure Filter.Condition where
  key : String
  op : Comparison
  value : Property
  deriving Repr, Inhabited

/-- The condition holds for properties. -/
def Filter.Condition.holds (c : Filter.Condition) (props : Properties) : Bool :=
  c.op.evaluate props[c.key]? c.value

/-- A conjunction of conditions. -/
abbrev Filter := List Filter.Condition

namespace Filter

/-- Every condition holds for the properties. -/
def acceptsProperties (filter : Filter) (props : Properties) : Bool :=
  filter.all fun c => c.holds props

/-- Every condition holds for the node. -/
def accepts (filter : Filter) (n : Node) : Bool := filter.acceptsProperties n.properties

/-- The value of a condition. -/
def operand (key : String) (v : Value) : Outcome Property :=
  match Property.ofWire? v with
  | some value => .ok value
  | none => .error (.unsupportedFilterValue key)

/-- The condition that an operator with its value gives. -/
def operatorCondition (key : String) (operator : Key × Value) : Outcome Condition := do
  let (name, v) := operator
  match Comparison.ofOperatorName? name.display with
  | some op => pure ⟨key, op, ← operand key v⟩
  | none => .error (.unknownOperator name.display key)

/-- The conditions under one name. Paging is no condition. -/
def conditionsOf (entry : Key × Value) : Outcome (List Condition) := do
  let (name, v) := entry
  let key := name.display
  if key = "limit" || key = "offset" then pure []
  else
    match v with
    | .map operators => operators.mapM (operatorCondition key)
    | plain => pure [⟨key, .eq, ← operand key plain⟩]

/-- The filter that a JSON value denotes. Names and operators are visited in their order, and
the first fault is reported. -/
def ofWire (v : Value) : Outcome Filter := do
  match Json.ordered v with
  | .map entries => pure (← entries.mapM conditionsOf).flatten
  | other => .error (.filterNotObject (Json.print other))

/-- The conditions, each with its key, its sign and its described value. -/
def described (filter : Filter) : Value :=
  .list (filter.map fun c => .list [.text c.key, .text c.op.symbol, c.value.described])

end Filter

end ProgramGraph
