import ProgramGraph.Edge.Kind
import ProgramGraph.Failure
import ProgramGraph.Store.Filter
import ProgramGraph.Text.Blank
import ProgramGraph.Text.DecimalDigit

set_option autoImplicit false

/-! # Tokens of the query language

A query is cut into tokens from the left. At each place the first alternative that applies is
taken: a quoted text, a number, an operator, a word, a parenthesis, a run of blanks, which
gives no token. Where none applies, the query is refused at that place. A token knows the
byte at which it starts.
-/

namespace ProgramGraph.Query

open ProgramGraph.Text

/-- The reserved words. -/
inductive Keyword where
  | find
  | where
  | and
  | or
  | not
  | as
  /-- The word for a relation. -/
  | relation (kind : EdgeKind)
  | limit
  | offset
  | depth
  | exists
  deriving Repr, DecidableEq

/-- The word for a relation. -/
def relationWord : EdgeKind → String
  | .calls => "CALLING"
  | .inherits => "INHERITS"
  | .imports => "IMPORTS"
  | .contains => "CONTAINS"
  | .references => "REFERENCES"
  | .defines => "DEFINES"

namespace Keyword

/-- The word in capitals. -/
def word : Keyword → String
  | .find => "FIND"
  | .where => "WHERE"
  | .and => "AND"
  | .or => "OR"
  | .not => "NOT"
  | .as => "AS"
  | .relation kind => relationWord kind
  | .limit => "LIMIT"
  | .offset => "OFFSET"
  | .depth => "DEPTH"
  | .exists => "EXISTS"

/-- Every reserved word. -/
def all : List Keyword :=
  [.find, .where, .and, .or, .not, .as, .limit, .offset, .depth, .exists] ++
    EdgeKind.all.map .relation

/-- The reserved word that a word is, in any case of letters. -/
def ofWord? (word : String) : Option Keyword :=
  all.find? fun k => equalIgnoringAsciiCase k.word word

end Keyword

/-- The operator between an attribute and a value. -/
inductive Operator where
  | compare (op : Comparison)
  /-- The value occurs in the attribute, in any case of letters. -/
  | like
  deriving Repr, DecidableEq

namespace Operator

/-- The operator as it is written. -/
def symbol : Operator → String
  | .compare op => op.symbol
  | .like => "LIKE"

/-- The comparison that a store can evaluate. -/
def comparison? : Operator → Option Comparison
  | .compare op => some op
  | .like => none

end Operator

/-- What a token is. -/
inductive TokenKind where
  | keyword (k : Keyword)
  | identifier (name : String)
  | text (s : String)
  | number (written : String)
  | operator (op : Operator)
  | leftParen
  | rightParen
  /-- What stands behind the last token. -/
  | finish
  deriving Repr, DecidableEq

/-- A text in quotes that it does not hold: single ones if possible. -/
def quoted (s : String) : String :=
  if s.toList.contains '\'' then "\"" ++ s ++ "\"" else "'" ++ s ++ "'"

/-- The token as it is written. -/
def TokenKind.display : TokenKind → String
  | .keyword k => k.word
  | .identifier s | .number s => s
  | .text s => quoted s
  | .operator op => op.symbol
  | .leftParen => "("
  | .rightParen => ")"
  | .finish => "end of query"

/-- A token and the byte at which it starts. -/
structure Token where
  kind : TokenKind
  position : Nat
  deriving Repr, DecidableEq

/-! ## The alternatives -/

/-- The first alternative that applies in front of a text that starts with a given character. -/
inductive Lexeme where
  /-- A token that takes so many characters behind the first. -/
  | token (kind : TokenKind) (more : Nat)
  /-- Blanks that take so many characters behind the first. -/
  | blank (more : Nat)
  | mismatch
  deriving Repr, DecidableEq

/-- A character that a word may start with. -/
def startsWord (c : Char) : Bool := c.isAlpha || c = '_'

/-- A character that a word may hold behind the first. -/
def continuesWord (c : Char) : Bool := startsWord c || c.isDigit

/-- The token that a word is. -/
def wordToken (word : String) : TokenKind :=
  if equalIgnoringAsciiCase word "LIKE" then .operator .like
  else match Keyword.ofWord? word with
    | some k => .keyword k
    | none => .identifier word

/-- The number at the front of the characters: digits of any script behind a sign that may be
left out, and a point with more digits if digits follow it. -/
def number? (chars : List Char) : Option (List Char) :=
  let (sign, unsigned) := match chars with
    | '-' :: rest => (['-'], rest)
    | _ => ([], chars)
  let whole := unsigned.takeWhile isDecimalDigit
  if whole.isEmpty then none
  else
    match unsigned.dropWhile isDecimalDigit with
    | '.' :: rest =>
        let fraction := rest.takeWhile isDecimalDigit
        if fraction.isEmpty then some (sign ++ whole) else some (sign ++ whole ++ '.' :: fraction)
    | _ => some (sign ++ whole)

/-- The comparison sign at the front of the characters and its length; longer signs first. -/
def sign? : List Char → Option (Comparison × Nat)
  | '>' :: '=' :: _ => some (.ge, 2)
  | '<' :: '=' :: _ => some (.le, 2)
  | '!' :: '=' :: _ => some (.ne, 2)
  | '<' :: '>' :: _ => some (.ne, 2)
  | '>' :: _ => some (.gt, 1)
  | '<' :: _ => some (.lt, 1)
  | '=' :: _ => some (.eq, 1)
  | _ => none

/-- The text up to the closing quote, if the characters behind the opening one hold it. -/
def body? (mark : Char) (rest : List Char) : Option (List Char) :=
  if rest.contains mark then some (rest.takeWhile (· != mark)) else none

/-- The alternative that applies where `c` is followed by `rest`. -/
def lexeme (c : Char) (rest : List Char) : Lexeme :=
  match (if c = '\'' || c = '"' then body? c rest else none) with
  | some body => .token (.text (String.ofList body)) (body.length + 1)
  | none =>
    match number? (c :: rest) with
    | some written => .token (.number (String.ofList written)) (written.length - 1)
    | none =>
      match sign? (c :: rest) with
      | some (op, length) => .token (.operator (.compare op)) (length - 1)
      | none =>
        if startsWord c then
          let more := rest.takeWhile continuesWord
          .token (wordToken (String.ofList (c :: more))) more.length
        else if c = '(' then .token .leftParen 0
        else if c = ')' then .token .rightParen 0
        else if isBlank c then .blank (rest.takeWhile isBlank).length
        else .mismatch

/-! ## The tokens of a text -/

/-- The number of bytes that characters take. -/
def byteLength (chars : List Char) : Nat := chars.foldr (fun c total => c.utf8Size + total) 0

/-- The tokens of what is left of a query, where `position` bytes are read already. -/
def tokensFrom (position : Nat) : List Char → Outcome (List Token)
  | [] => .ok []
  | c :: rest =>
      match lexeme c rest with
      | .mismatch => .error (.query (.unexpectedCharacter c) (some position))
      | .blank more =>
          tokensFrom (position + byteLength (c :: rest.take more)) (rest.drop more)
      | .token kind more => do
          let tokens ← tokensFrom (position + byteLength (c :: rest.take more)) (rest.drop more)
          pure (⟨kind, position⟩ :: tokens)
termination_by chars => chars.length
decreasing_by all_goals simp only [List.length_drop, List.length_cons]; omega

/-- The tokens of a query. -/
def tokenize (text : String) : Outcome (List Token) := tokensFrom 0 text.toList

end ProgramGraph.Query
