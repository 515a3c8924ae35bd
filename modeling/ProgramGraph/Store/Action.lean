import ProgramGraph.Store.Basic
import ProgramGraph.Store.Chunk

set_option autoImplicit false

/-! # Work on a store

A run of operations on a store, which ends with a result, with a failure, or by being aborted.
What was written before the end stays written, unless the run is a transaction: a transaction
that does not end well leaves no change. A transaction inside another is a part of it, and its
own end neither keeps nor undoes anything.
-/

namespace ProgramGraph

/-- Why work ended before its end. -/
inductive Stop where
  /-- An operation failed. -/
  | failed (failure : Failure)
  /-- The work was aborted, together with all work around it. -/
  | aborted
  deriving Repr, DecidableEq

/-- Work on a store that may also work on something else, in the monad `m`. -/
abbrev ActionT (m : Type → Type) (α : Type) := ExceptT Stop (StateT Store m) α

/-- Work on a store. -/
abbrev Action (α : Type) := ActionT Id α

namespace Action

variable {m : Type → Type} [Monad m] {α : Type}

/-- Runs the work. -/
def runOn (work : ActionT m α) (s : Store) : m (Except Stop α × Store) := work s

/-- The work as a part of work that also works on something else. -/
def within (work : Action α) : ActionT m α := fun s => pure (runOn (m := Id) work s)

/-- Reads from the store. -/
def read (f : Store → Outcome α) : ActionT m α := fun s =>
  pure (match f s with
    | .ok a => .ok a
    | .error failure => .error (.failed failure), s)

/-- Writes to the store; a write that fails changes nothing. -/
def write (f : Store → Outcome Store) : ActionT m Unit := fun s =>
  pure (match f s with
    | .ok s' => (.ok (), s')
    | .error failure => (.error (.failed failure), s))

/-- Ends with a failure. -/
def fail (failure : Failure) : ActionT m α := fun s => pure (.error (.failed failure), s)

/-- Aborts the work. -/
def abort : ActionT m α := fun s => pure (.error .aborted, s)

/-- The end of a transaction inside another whose body ended so. -/
def closeInner : Except Stop α × Store → Except Stop α × Store
  | (ended, s) => (ended, s.leaveScope)

/-- The end of an outermost transaction whose body ended so. -/
def close : Except Stop α × Store → Except Stop α × Store
  | (.ok a, s) => (.ok a, s.commit)
  | (.error (.failed failure), s) => (.error (.failed (.ofTransaction failure)), s.rollback)
  | (.error .aborted, s) => (.error .aborted, s.rollback)

/-- Runs the work as a transaction. -/
def transaction (body : ActionT m α) : ActionT m α := fun s =>
  (if s.isOpen then closeInner else close) <$> body s.enterScope

end Action

namespace Store

/-- An operation that changes a store. -/
inductive Operation where
  | saveNode (n : Node)
  | saveEdge (e : Edge)
  | saveGraph (g : Graph) (options : SaveOptions)
  | deleteNode (id : String)
  | deleteEdge (source target : String) (kind : Option EdgeKind)
  | clear

/-- The store after an operation. -/
def perform (s : Store) : Operation → Outcome Store
  | .saveNode n => s.saveNode n
  | .saveEdge e => s.saveEdge e
  | .saveGraph g options => s.saveGraph g options
  | .deleteNode id => s.deleteNode id
  | .deleteEdge source target kind => s.deleteEdge source target kind
  | .clear => s.clear

end Store

namespace Action

/-- Performs an operation. -/
def perform (op : Store.Operation) : Action Unit := write fun s => s.perform op

/-- Performs operations in pieces, each piece a transaction, and counts them piece by piece. The
pieces before one that fails stay. -/
def performInChunks (ops : List Store.Operation) (batchSize : UInt64) : Action Nat :=
  (chunks batchSize ops).foldlM (fun done piece => do
    transaction (piece.forM perform)
    pure (done + piece.length)) 0

/-- Saves nodes, so many in a transaction. -/
def saveNodes (nodes : List Node) (batchSize : UInt64) : Action Nat :=
  performInChunks (nodes.map .saveNode) batchSize

/-- Saves edges, so many in a transaction. -/
def saveEdges (edges : List Edge) (batchSize : UInt64) : Action Nat :=
  performInChunks (edges.map .saveEdge) batchSize

end Action

end ProgramGraph
