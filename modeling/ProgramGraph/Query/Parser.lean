import ProgramGraph.Query.Syntax

set_option autoImplicit false

/-! # Reading queries

    FIND kind [AS alias] [WHERE condition {(AND | OR) condition}] [LIMIT count] [OFFSET count]

A condition is an attribute, an operator and a value, or the word for a relation and a quoted
target. A value is a number, a quoted text, or a word that stands for its text. A fault is
reported at the token where it shows; behind the last token that is the end of the text.
-/

namespace ProgramGraph.Query

/-- What stands in front of the remaining tokens. -/
def front : List Token → TokenKind
  | [] => .finish
  | token :: _ => token.kind

/-- The byte at which the remaining tokens start, where the text ends at byte `finish`. -/
def place (finish : Nat) : List Token → Nat
  | [] => finish
  | token :: _ => token.position

/-- A problem at the front of the remaining tokens. -/
def problemAt {α : Type} (finish : Nat) (tokens : List Token) (problem : QueryProblem) :
    Outcome α :=
  .error (.query problem (some (place finish tokens)))

/-- The number below a bound that a text of ASCII digits denotes. -/
def natBelow? (bound : Nat) (digits : List Char) : Option Nat :=
  if digits.isEmpty || !digits.all Char.isDigit then none
  else
    let n := Decimal.natOfDigits digits
    if n < bound then some n else none

/-- The 64-bit integer that a text of ASCII digits behind an optional sign denotes. -/
def int64? : List Char → Option Int64
  | '-' :: digits => (natBelow? (UInt64.size / 2 + 1) digits).map fun n => Int64.ofInt (-n)
  | digits => (natBelow? (UInt64.size / 2) digits).map Int64.ofNat

/-- The value of a written number: a float if it has a point, and an integer otherwise. -/
def numberValue (written : String) : Except QueryProblem Property :=
  let chars := written.toList
  if chars.contains '.' then
    match Decimal.read? chars with
    | some x => .ok (.float (.ofFloat x))
    | none => .error (.invalidNumber written)
  else
    match int64? chars with
    | some n => .ok (.int n)
    | none => .error (.integerOutOfRange written)

/-- The value behind an operator. -/
def readValue (finish : Nat) (tokens : List Token) : Outcome (Property × List Token) :=
  match tokens with
  | ⟨.number written, _⟩ :: rest =>
      match numberValue written with
      | .ok value => .ok (value, rest)
      | .error problem => problemAt finish tokens problem
  | ⟨.text s, _⟩ :: rest | ⟨.identifier s, _⟩ :: rest => .ok (.text s, rest)
  | _ => problemAt finish tokens .valueExpected

/-- The operator and the value behind an attribute. -/
def readComparison (finish : Nat) (name : String) (tokens : List Token) :
    Outcome (Condition × List Token) :=
  match tokens with
  | ⟨.operator op, _⟩ :: rest => do
      let (value, after) ← readValue finish rest
      pure (.attribute name op value, after)
  | _ => problemAt finish tokens (.operatorExpected name)

/-- The target behind the word for a relation. -/
def readTarget (finish : Nat) (kind : EdgeKind) (tokens : List Token) :
    Outcome (Condition × List Token) :=
  match tokens with
  | ⟨.text target, _⟩ :: rest => .ok (.related kind target, rest)
  | _ => problemAt finish tokens (.targetExpected (relationWord kind))

/-- A condition. -/
def readCondition (finish : Nat) (tokens : List Token) : Outcome (Condition × List Token) :=
  match tokens with
  | ⟨.keyword (.relation kind), _⟩ :: rest => readTarget finish kind rest
  | ⟨.keyword k, _⟩ :: _ => problemAt finish tokens (.unexpectedKeyword k.word)
  | ⟨.identifier name, _⟩ :: rest => readComparison finish name rest
  | _ => problemAt finish tokens (.unexpectedToken (front tokens).display)

/-- The connective that a token is. -/
def connective? : TokenKind → Option Connective
  | .keyword .and => some .and
  | .keyword .or => some .or
  | _ => none

/-- Further conditions, as long as a connective stands in front of one. Each takes at least
one token, so the number of tokens bounds them. -/
def readMore (finish : Nat) :
    Nat → List Token → Outcome (List (Connective × Condition) × List Token)
  | 0, tokens => .ok ([], tokens)
  | bound + 1, tokens =>
      match connective? (front tokens) with
      | none => .ok ([], tokens)
      | some connective => do
          let (c, afterCondition) ← readCondition finish tokens.tail
          let (more, rest) ← readMore finish bound afterCondition
          pure ((connective, c) :: more, rest)

/-- The conditions behind WHERE. -/
def readConditions (finish : Nat) (tokens : List Token) : Outcome (Conditions × List Token) := do
  let (first, afterFirst) ← readCondition finish tokens
  let (more, rest) ← readMore finish afterFirst.length afterFirst
  pure (⟨first, more⟩, rest)

/-- The kind that is looked for, with its alias. -/
def readFind (finish : Nat) (tokens : List Token) :
    Outcome ((String × Option String) × List Token) :=
  match tokens with
  | ⟨.keyword .find, _⟩ :: afterFind =>
      match afterFind with
      | ⟨.identifier kind, _⟩ :: ⟨.keyword .as, _⟩ :: afterAs =>
          match afterAs with
          | ⟨.identifier asName, _⟩ :: rest => .ok ((kind, some asName), rest)
          | _ => problemAt finish afterAs .aliasExpected
      | ⟨.identifier kind, _⟩ :: rest => .ok ((kind, none), rest)
      | _ => problemAt finish afterFind .kindExpected
  | _ => problemAt finish tokens .findExpected

/-- A part of the query that starts with a reserved word, if that word stands in front. -/
def readPart {α : Type} (keyword : Keyword) (read : List Token → Outcome (α × List Token))
    (tokens : List Token) : Outcome (Option α × List Token) :=
  if front tokens = .keyword keyword then do
    let (a, rest) ← read tokens.tail
    pure (some a, rest)
  else .ok (none, tokens)

/-- The count behind LIMIT or OFFSET: at most the largest number of 64 bits. -/
def readCount (finish : Nat) (clause : Keyword) (tokens : List Token) :
    Outcome (Nat × List Token) :=
  match tokens with
  | ⟨.number written, _⟩ :: rest =>
      match natBelow? UInt64.size written.toList with
      | some n => .ok (n, rest)
      | none => problemAt finish tokens (.countExpected clause.word)
  | _ => problemAt finish tokens (.countExpected clause.word)

/-- The query that tokens form; the text ends at byte `finish`. -/
def ofTokens (finish : Nat) (tokens : List Token) : Outcome Query := do
  if tokens.isEmpty then .error (.query .empty (some 0))
  let ((kind, asName), afterFind) ← readFind finish tokens
  let (conditions, afterWhere) ← readPart .where (readConditions finish) afterFind
  let (limit, afterLimit) ← readPart .limit (readCount finish .limit) afterWhere
  let (offset, rest) ← readPart .offset (readCount finish .offset) afterLimit
  if rest.isEmpty then pure ⟨kind, asName, conditions, limit, offset⟩
  else problemAt finish rest (.trailingInput (front rest).display)

/-- The query that a text denotes. -/
def parse (text : String) : Outcome Query := do
  ofTokens text.utf8ByteSize (← tokenize text)

end ProgramGraph.Query
