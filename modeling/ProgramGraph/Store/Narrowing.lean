import ProgramGraph.Json.Printer
import ProgramGraph.Store.Filter
import ProgramGraph.Store.Statement

set_option autoImplicit false

/-! # Narrowing by a database

A table store does not decode the rows that its database can tell a filter refuses, so that
nothing wrong in them shows. The database sees the stored properties and judges one condition at
a time. It is more generous than the condition: a text passes every comparison with a number,
and all that most conditions ask for is a value.

The path by which the database finds a property holds the key between quotes. A key with a quote
has no path, and its condition admits everything; a backslash starts an escape; and a key with a
zero character gives a path without an end, which is an error.
-/

namespace ProgramGraph

/-- A text that equals nothing but texts with the same characters. -/
def isPlainText (s : String) : Bool :=
  s != "true" && s != "false" && (Property.text s).number?.isNone

namespace Filter.Condition

/-- The database admits a stored value. Where it compares with a number, truth values are one
and zero, and a list is a text that starts with no number, which is zero. -/
def admitsValue (c : Condition) (stored : Property) : Bool :=
  match c.op, c.value, stored with
  | _, _, .null => false
  | .ne, _, _ => true
  | op, .int _, _ | op, .float _, _ =>
      match stored with
      | .text _ => true
      | .bool b => op.holds (.int (if b then 1 else 0)) c.value
      | .texts _ => op.holds (.int 0) c.value
      | number => op.holds number c.value
  | .eq, .text s, _ =>
      !isPlainText s ||
        match stored with
        | .text t => t = s
        | .texts _ => Json.print stored.toWire = s
        | _ => false
  | _, _, _ => true

/-- The name of the property that a key without quotes finds. -/
def foundName? (key : String) : Option String :=
  if key.toList.contains '\\' then
    let quoted := key.toList.flatMap fun c => if c.toNat < 0x20 then Json.escape c else [c]
    match Json.readQuoted? (quoted ++ ['"']) with
    | some (name, []) => name
    | _ => none
  else some key

/-- The failure of a query by a key with a zero character, where the path breaks off. -/
def brokenPath (key : String) : Failure :=
  let seen := key.toList.takeWhile (· ≠ '\x00')
  let doubled := seen.flatMap fun c => if c = '\'' then [c, c] else [c]
  Statement.failure Statement.queryNodes.citation
    ("bad JSON path: '$.\"" ++ String.ofList doubled ++ "'")

/-- The database admits properties. -/
def admits (c : Condition) (props : Properties) : Outcome Bool :=
  if c.key.toList.contains '"' then .ok true
  else if c.key.toList.contains '\x00' then .error (brokenPath c.key)
  else .ok ((foundName? c.key).any fun name => props[name]?.any c.admitsValue)

end Filter.Condition

/-- The database admits properties by every condition. -/
def Filter.admits (filter : Filter) (props : Properties) : Outcome Bool :=
  filter.allM fun c => c.admits props

end ProgramGraph
