import ProgramGraph.Decimal.Binary64
import ProgramGraph.Text.Utf8

set_option autoImplicit false

/-! # Values on the wire

The data that the encodings of the library carry (`Json`, `MsgPack`): scalars, lists and maps.
A map keeps its entries in the order of the text and keeps repeated keys, since whether a
repetition is an error depends on what is read from the map.

Reading a value of the library's own types goes through the functions `Value.text?`,
`Value.members?` and so on; each refuses a value of the wrong shape by `none`.
-/

namespace ProgramGraph.Wire

open ProgramGraph.Text

/-- The key of a map entry. -/
inductive Key where
  /-- A name. -/
  | name (text : String)
  /-- The position of a member, in the binary encoding only. -/
  | position (n : Nat)
  /-- Bytes that are no text, in the binary encoding only. They name nothing. -/
  | nameless
  deriving Repr, DecidableEq, Inhabited

/-- The key as a text. -/
def Key.display : Key → String
  | .name text => text
  | .position n => toString n
  | .nameless => ""

/-- A value as an encoding carries it. An integer lies between `-2 ^ 63` and `2 ^ 64 - 1`. -/
inductive Value where
  | null
  | bool (b : Bool)
  | integer (n : Int)
  /-- An integer in a form with a sign, which the binary encoding keeps apart: it stands for
  the same number, and never for a position. -/
  | signed (n : Int)
  | float (x : Binary64)
  | text (s : String)
  /-- A byte string, or a text whose bytes are no sequence of characters. -/
  | bytes (content : Bytes)
  | list (items : List Value)
  | map (entries : List (Key × Value))
  /-- Well formed in its encoding, and without meaning: a number beyond the range of floats, a
  text with half a character. It may stand where nobody looks at it. -/
  | unreadable
  deriving Repr, Inhabited

/-- The ways in which the two encodings differ for a reader. -/
inductive Encoding where
  /-- Cases of an enumeration are given by name. -/
  | named
  /-- Cases of an enumeration may also be given by their position. -/
  | positional
  deriving Repr, DecidableEq

namespace Value

/-- A truth value. -/
def bool? : Value → Option Bool
  | .bool b => some b
  | _ => none

/-- A text, also one in a byte string. -/
def text? : Value → Option String
  | .text s => some s
  | .bytes content => ofUtf8? content
  | _ => none

/-- An integer in either form. -/
def integer? : Value → Option Int
  | .integer n | .signed n => some n
  | _ => none

/-- An integer below a bound, and not negative. -/
def natBelow? (bound : Nat) (v : Value) : Option Nat :=
  match v.integer? with
  | some (.ofNat n) => if n < bound then some n else none
  | _ => none

/-- A word of 64 bits. -/
def word64? (v : Value) : Option UInt64 := (v.natBelow? UInt64.size).map UInt64.ofNat

/-- A word of 32 bits. -/
def word32? (v : Value) : Option UInt32 := (v.natBelow? UInt32.size).map UInt32.ofNat

/-- The float nearest to an integer of the wire: both signs are converted from their 64-bit
form. -/
def floatOfInteger (n : Int) : Binary64 :=
  .ofFloat (if 0 ≤ n then (UInt64.ofNat n.toNat).toFloat else (Int64.ofInt n).toFloat)

/-- A number as a float; an integer is converted. -/
def float? : Value → Option Binary64
  | .float x => some x
  | v => v.integer?.map floatOfInteger

/-- A list, each item read by `read`. A byte string is the list of its bytes. -/
def list? {α : Type} (read : Value → Option α) : Value → Option (List α)
  | .list items => items.mapM read
  | .bytes content => content.mapM fun b => read (.integer b.toNat)
  | _ => none

/-- Null, or what `read` reads. -/
def nullable {α : Type} (read : Value → Option α) : Value → Option (Option α)
  | .null => some none
  | v => (read v).map some

/-- An entry of a map with names as keys. -/
def named? {α : Type} (read : Value → Option α) : Key × Value → Option (String × α)
  | (.name key, v) => (read v).map (key, ·)
  | _ => none

/-- The entries of a map with names as keys, in their order. -/
def entries? {α : Type} (read : Value → Option α) : Value → Option (List (String × α))
  | .map entries => entries.mapM (named? read)
  | _ => none

/-- The value under a name; of a repeated name the last one counts. -/
def field? (name : String) : Value → Option Value
  | .map entries => (entries.reverse.find? fun entry => entry.1 = .name name).map Prod.snd
  | _ => none

/-- One of finitely many cases, each with its name: the name, a map from the name to null, or,
where the encoding allows it, the position of the case. -/
def case? {α : Type} (encoding : Encoding) (cases : List (String × α)) : Value → Option α
  | .integer (.ofNat n) => if encoding = .positional then cases[n]?.map Prod.snd else none
  | .map [(.name s, .null)] => cases.lookup s
  | .map [(.position n, .null)] => cases[n]?.map Prod.snd
  | v => v.text?.bind fun s => cases.lookup s

end Value

/-- The members of a structure that a value gives: each with the first of its names. -/
abbrev Members := List (String × Value)

namespace Members

/-- The index of the member that a key names. Every member has a list of names. -/
def indexOf? (known : List (List String)) : Key → Option Nat
  | .name s => known.findIdx? (·.contains s)
  | .position n => if n < known.length then some n else none
  | .nameless => none

/-- Puts an entry in front of the members already read. An entry that names no member is
skipped, and a second one for the same member refuses the whole. -/
def enter (known : List (List String)) (entry : Key × Value) (read : Members) :
    Option Members :=
  match (indexOf? known entry.1).bind fun i => known[i]?.bind List.head? with
  | none => some read
  | some name => if (read.lookup name).isSome then none else some ((name, entry.2) :: read)

/-- The members of a map. -/
def ofEntries? (known : List (List String)) : List (Key × Value) → Option Members
  | [] => some []
  | entry :: rest => (ofEntries? known rest).bind (enter known entry)

/-- A member that must be given. -/
def required {α : Type} (m : Members) (name : String) (read : Value → Option α) : Option α :=
  (m.lookup name).bind read

/-- A member with a value for the case that it is left out. -/
def orElse {α : Type} (m : Members) (name : String) (read : Value → Option α) (absent : α) :
    Option α :=
  match m.lookup name with
  | some v => read v
  | none => some absent

/-- A member that may be left out or null. -/
def optional {α : Type} (m : Members) (name : String) (read : Value → Option α) :
    Option (Option α) :=
  m.orElse name (Value.nullable read) none

end Members

/-- The members of a structure, written as a map, or as a list in the order of the known
members. A list may end early and may not be longer. -/
def Value.members? (known : List (List String)) : Value → Option Members
  | .map entries => Members.ofEntries? known entries
  | .list items =>
      if items.length ≤ known.length then some ((known.filterMap List.head?).zip items) else none
  | _ => none

/-- A structure written as a map of its members, each written only if it has a value. -/
def Value.ofMembers (members : List (String × Option Value)) : Value :=
  .map (members.filterMap fun (name, v) => v.map (Key.name name, ·))

end ProgramGraph.Wire
