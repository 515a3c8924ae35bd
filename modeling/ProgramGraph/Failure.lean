set_option autoImplicit false

/-! # Failures

What can go wrong in an operation of the library. A failure is its cause; `Failure.message` is
the one place where the causes are put into words.
-/

namespace ProgramGraph

/-- The end of an edge that is missing from a graph. -/
inductive EdgeEnd where
  | source
  | target
  deriving Repr, DecidableEq

/-- What a text or a sequence of bytes should have held when it could not be read. -/
inductive Encoded where
  /-- A graph in JSON. -/
  | graphJson
  /-- A graph in the binary encoding. -/
  | graphBytes
  /-- A stored node or edge. -/
  | record
  /-- The properties of a stored row. -/
  | properties
  deriving Repr, DecidableEq

/-- The shape that a property must have. -/
inductive Expected where
  | text
  | integer
  | bool
  | texts
  deriving Repr, DecidableEq

/-- What is wrong with a query. -/
inductive QueryProblem where
  | unexpectedCharacter (c : Char)
  | empty
  | findExpected
  | kindExpected
  | aliasExpected
  | unexpectedKeyword (word : String)
  | unexpectedToken (text : String)
  | operatorExpected (name : String)
  | valueExpected
  | invalidNumber (text : String)
  | integerOutOfRange (text : String)
  | targetExpected (relation : String)
  | countExpected (clause : String)
  | trailingInput (text : String)
  | unknownKind (name : String)
  deriving Repr, DecidableEq

/-- Why a file could not be read. -/
inductive ReadProblem where
  | missing
  | directory
  | notDirectory
  | nameTooLong
  | notText
  | nulInName
  deriving Repr, DecidableEq

/-- Why a file gave no record. -/
inductive FileProblem where
  | unreadable (path : String) (why : ReadProblem)
  | tooLarge (path : String) (size : Nat)
  | unsupported (path language : String)
  | invalidRecord (path : String)
  deriving Repr, DecidableEq

/-- The cause of a failed operation. -/
inductive Failure where
  /-- A store refused to work. -/
  | storage (message : String)
  /-- A transaction was undone because its body failed. -/
  | rolledBack (cause : Failure)
  | nodeMissing (id : String)
  | danglingEdge (source target : String) (missing : EdgeEnd)
  | query (problem : QueryProblem) (position : Option Nat)
  /-- An operation that makes no sense, in the words of whoever refused it. -/
  | refused (reason : String)
  | alreadyRunning
  /-- A filter that is no object, as compact JSON. -/
  | filterNotObject (written : String)
  | unknownOperator (operator key : String)
  | unsupportedFilterValue (key : String)
  | unknownNodeKind (name : String)
  | unknownEdgeKind (name : String)
  | wrongProperty (owner key : String) (expected : Expected) (actual : String)
  | undecodable (what : Encoded)
  | file (problem : FileProblem)
  deriving Repr, DecidableEq

/-- The classes into which callers sort failures. -/
inductive FailureClass where
  | storage
  | nodeNotFound
  | invalidEdge
  | querySyntax
  | invalidOperation
  | serialization
  | unreadableFile
  | oversizedFile
  | unsupportedLanguage
  | invalidRecord
  deriving Repr, DecidableEq

/-- The name of the class. -/
def FailureClass.name : FailureClass → String
  | .storage => "Storage"
  | .nodeNotFound => "NodeNotFound"
  | .invalidEdge => "InvalidEdge"
  | .querySyntax => "QuerySyntax"
  | .invalidOperation => "InvalidOperation"
  | .serialization => "Serialization"
  | .unreadableFile => "IoError"
  | .oversizedFile => "FileTooLarge"
  | .unsupportedLanguage => "UnsupportedLanguage"
  | .invalidRecord => "InvalidRecord"

/-- The missing end in words. -/
def EdgeEnd.message : EdgeEnd → String
  | .source => "source node not in graph"
  | .target => "target node not in graph"

/-- What could not be decoded. -/
def Encoded.name : Encoded → String
  | .graphJson => "graph JSON"
  | .graphBytes => "graph msgpack"
  | .record => "record"
  | .properties => "properties"

/-- The expected shape with its article. -/
def Expected.name : Expected → String
  | .text => "a string"
  | .integer => "an integer"
  | .bool => "a boolean"
  | .texts => "a string list"

/-- The problem with a query in words. -/
def QueryProblem.message : QueryProblem → String
  | .unexpectedCharacter c => "Unexpected character '" ++ c.toString ++ "'"
  | .empty => "Empty query"
  | .findExpected => "Expected FIND keyword"
  | .kindExpected => "Expected node type after FIND"
  | .aliasExpected => "Expected alias after AS"
  | .unexpectedKeyword word => "Unexpected keyword " ++ word
  | .unexpectedToken text => "Unexpected token: " ++ text
  | .operatorExpected name => "Expected operator after '" ++ name ++ "'"
  | .valueExpected => "Expected value after operator"
  | .invalidNumber text => "Invalid number '" ++ text ++ "'"
  | .integerOutOfRange text => "Integer out of range '" ++ text ++ "'"
  | .targetExpected relation => "Expected string target after " ++ relation
  | .countExpected clause => "Expected non-negative integer after " ++ clause
  | .trailingInput text => "Unexpected trailing input: " ++ text
  | .unknownKind name => "Unknown node type: " ++ name

/-- The words of the operating system. -/
def ReadProblem.message : ReadProblem → String
  | .missing => "No such file or directory (os error 2)"
  | .directory => "Is a directory (os error 21)"
  | .notDirectory => "Not a directory (os error 20)"
  | .nameTooLong => "File name too long (os error 36)"
  | .notText => "stream did not contain valid UTF-8"
  | .nulInName => "file name contained an unexpected NUL byte"

/-- The problem with a file in words. -/
def FileProblem.message : FileProblem → String
  | .unreadable path why => "IO error reading " ++ path ++ ": " ++ why.message
  | .tooLarge path size =>
      "File " ++ path ++ " exceeds maximum size (" ++ toString size ++ " bytes)"
  | .unsupported path language =>
      "No parser available for " ++ path ++ " (language: " ++ language ++ ")"
  | .invalidRecord path => "Invalid parsed-file record for " ++ path

/-- The class of a problem with a file. -/
def FileProblem.classify : FileProblem → FailureClass
  | .unreadable .. => .unreadableFile
  | .tooLarge .. => .oversizedFile
  | .unsupported .. => .unsupportedLanguage
  | .invalidRecord _ => .invalidRecord

namespace Failure

/-- The class of a failure. -/
def classify : Failure → FailureClass
  | .storage _ | .rolledBack _ => .storage
  | .nodeMissing _ => .nodeNotFound
  | .danglingEdge .. => .invalidEdge
  | .query .. => .querySyntax
  | .refused _ | .alreadyRunning | .filterNotObject _ | .unknownOperator .. => .invalidOperation
  | .unsupportedFilterValue _ | .unknownNodeKind _ | .unknownEdgeKind _ | .wrongProperty ..
  | .undecodable _ => .serialization
  | .file problem => problem.classify

/-- The failure in words. -/
def message : Failure → String
  | .storage text => "Storage error: " ++ text
  | .rolledBack cause => "Storage error: Transaction rolled back: " ++ cause.message
  | .nodeMissing id => "Node not found: " ++ id
  | .danglingEdge source target missing =>
      "Invalid edge " ++ source ++ " -> " ++ target ++ ": " ++ missing.message
  | .query problem none => "Query syntax error: " ++ problem.message
  | .query problem (some position) =>
      "Query syntax error at position " ++ toString position ++ ": " ++ problem.message
  | .refused reason => "Invalid operation: " ++ reason
  | .alreadyRunning => "Invalid operation: Incremental updater is already running"
  | .filterNotObject written => "Invalid operation: Filter must be a JSON object, got " ++ written
  | .unknownOperator operator key =>
      "Invalid operation: Unknown filter operator '" ++ operator ++ "' on '" ++ key ++ "'"
  | .unsupportedFilterValue key =>
      "Serialization error: Unsupported filter value for '" ++ key ++ "'"
  | .unknownNodeKind name => "Serialization error: Unknown node type: " ++ name
  | .unknownEdgeKind name => "Serialization error: Unknown edge type: " ++ name
  | .wrongProperty owner key expected actual =>
      "Serialization error: Property '" ++ key ++ "' of " ++ owner ++ " must be " ++ expected.name
        ++ ", got " ++ actual
  | .undecodable what => "Serialization error: Failed to decode " ++ what.name
  | .file problem => problem.message

/-- What a transaction reports when its body ends with a failure: the failure of a store as it
is, any other as the cause of the undoing. -/
def ofTransaction (failure : Failure) : Failure :=
  if failure.classify = .storage then failure else .rolledBack failure

/-- Whatever ends the body of a transaction, the transaction reports a failure of the store. -/
theorem classify_ofTransaction (failure : Failure) :
    failure.ofTransaction.classify = .storage := by
  unfold ofTransaction
  split
  · assumption
  · rfl

end Failure

/-- A result of an operation that can fail. -/
abbrev Outcome (α : Type) := Except Failure α

end ProgramGraph
