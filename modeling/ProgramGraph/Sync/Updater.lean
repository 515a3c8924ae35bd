import ProgramGraph.Delta.Stored
import ProgramGraph.Outline.Assembly
import ProgramGraph.Outline.Reader
import ProgramGraph.Sync.Fragment
import ProgramGraph.Sync.Tracker

set_option autoImplicit false

/-! # Keeping a store in step with files

When a file changes, the difference between what the store holds of it and what its text says
now is applied to the store, in one transaction. Nodes that the file does not own are never
deleted with it. An updater does this for a queue of changes and counts what it does.
-/

namespace ProgramGraph

open ProgramGraph.Wire

/-- The change set without the deletion of nodes that a file does not own. -/
def Delta.sparing (d : Delta) (previous : Graph) (path : String) : Delta :=
  { d with
    deletedNodes := d.deletedNodes.filter fun id =>
      (previous.node? id).any fun n => n.isOwnedBy path }

/-- What a change of a file changes, given what the store held of it. -/
def changesOf (readers : List OutlineReader) (d : Directory) (c : FileChange)
    (previous : Graph) : Outcome Delta :=
  match c.change with
  | .delete => .ok (Delta.removing previous)
  | .create | .modify => do
      let outline ← OutlineReader.readWith readers d c.path
      pure (Delta.between previous { outline with path := c.path.text }.graph)

/-- Brings a store in step with a changed file. -/
def syncFile (readers : List OutlineReader) (d : Directory) (c : FileChange) : Action Delta := do
  let previous ← Action.read fun s => s.fragment c.path.text
  let changes ← Action.read fun _ => changesOf readers d c previous
  let delta := changes.sparing previous c.path.text
  if !delta.isEmpty then
    Action.transaction delta.store
  pure delta

/-- Keeps a store in step with files. -/
structure Updater where
  readers : List OutlineReader
  settings : SyncSettings
  tracker : Tracker
  /-- The number of changes dealt with. -/
  processed : Nat
  /-- The number of those that changed the store. -/
  applied : Nat
  /-- The number of changes that failed. -/
  failed : Nat
  /-- The queue is being worked on. -/
  isRunning : Bool
  /-- Directories are being watched. -/
  isWatching : Bool
  deriving Inhabited

/-- What an updater reports of itself. -/
structure UpdaterReport where
  processed : Nat
  applied : Nat
  /-- Failed changes and dropped events. -/
  errors : Nat
  queued : Nat
  pending : Nat
  isRunning : Bool
  isWatching : Bool
  deriving Repr, DecidableEq

/-- The report as a map. -/
def UpdaterReport.toWire (r : UpdaterReport) : Value :=
  .map
    [(.name "changes_processed", .integer r.processed),
      (.name "deltas_applied", .integer r.applied), (.name "errors", .integer r.errors),
      (.name "queue_size", .integer r.queued), (.name "pending_changes", .integer r.pending),
      (.name "is_running", .bool r.isRunning), (.name "is_watching", .bool r.isWatching)]

namespace Updater

/-- An updater that has done nothing yet. -/
def new (readers : List OutlineReader) (settings : SyncSettings) : Updater where
  readers := readers
  settings := settings
  tracker := .new settings.debounce settings.maxQueueSize.toNat
  processed := 0
  applied := 0
  failed := 0
  isRunning := false
  isWatching := false

/-- The updater after a change was dealt with. -/
def count (u : Updater) : Except Stop Delta → Updater
  | .ok delta =>
      { u with
        processed := u.processed + 1
        applied := if delta.isEmpty then u.applied else u.applied + 1 }
  | .error _ => { u with failed := u.failed + 1 }

/-- Deals with a change. -/
def process (u : Updater) (d : Directory) (c : FileChange) (s : Store) :
    Except Stop Delta × Updater × Store :=
  let (result, s') := Action.runOn (m := Id) (syncFile u.readers d c) s
  (result, u.count result, s')

/-- What a look at a path says has happened there: what is there counts as modified, and what
is not as deleted. -/
def seenAt (d : Directory) (path : FilePath) : FileChange :=
  ⟨path, if d.holds path then .modify else .delete⟩

/-- Records an event. -/
def record (u : Updater) (now : Nat) (event : FileChange) : EventOutcome × Updater :=
  let (outcome, tracker) := u.tracker.record now event
  (outcome, { u with tracker := tracker })

/-- Starts working on the queue, and watching if there are directories to watch. -/
def start (u : Updater) (paths : List FilePath) : Outcome Updater :=
  if u.isRunning then .error .alreadyRunning
  else .ok { u with isRunning := true, isWatching := !paths.isEmpty }

/-- Stops working and watching. -/
def stop (u : Updater) : Updater := { u with isRunning := false, isWatching := false }

/-- Deals with so many changes from the queue. -/
def work (d : Directory) (now : Nat) : Nat → Updater × Store → Updater × Store
  | 0, acc => acc
  | changes + 1, (u, s) =>
      match u.tracker.next now with
      | (none, tracker) => work d now changes ({ u with tracker := tracker }, s)
      | (some c, tracker) =>
          let (_, u', s') := { u with tracker := tracker }.process d c s
          work d now changes (u', s')

/-- Deals with the queue at a moment when every window has closed. -/
def drain (u : Updater) (d : Directory) (now : Nat) (s : Store) : Updater × Store :=
  work d now u.tracker.queue.length (u, s)

/-- What the updater reports of itself. -/
def report (u : Updater) : UpdaterReport where
  processed := u.processed
  applied := u.applied
  errors := u.failed + u.tracker.dropped
  queued := u.tracker.queue.length
  pending := u.tracker.pending.size
  isRunning := u.isRunning
  isWatching := u.isWatching

end Updater

end ProgramGraph
