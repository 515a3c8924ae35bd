import Std.Data.TreeMap
import ProgramGraph.Sync.Change
import ProgramGraph.Time.Duration

set_option autoImplicit false

/-! # Tracking changes

A tracker keeps a bounded queue of changes, and for each path with a change under way the
moment of its last event and the changes merged since the path was last idle. An event within
the window of its path is merged; any other is queued, and dropped if the queue is full. A
change leaves the queue once its window has closed, and then carries what was merged.

Moments are numbers of nanoseconds, and every operation is told the present one.
-/

namespace ProgramGraph

/-- A change under way at a path. -/
structure PendingChange where
  /-- The moment of the last event. -/
  lastSeen : Nat
  change : Change
  deriving Repr, DecidableEq, Inhabited

/-- What became of an event. -/
inductive EventOutcome where
  | queued
  | merged
  | dropped
  deriving Repr, DecidableEq, Inhabited

/-- The word for the outcome. -/
def EventOutcome.name : EventOutcome → String
  | .queued => "queued"
  | .merged => "merged"
  | .dropped => "dropped"

/-- The changes under way. -/
structure Tracker where
  /-- Events of one path within this time are merged. -/
  window : Duration
  /-- The number of changes that the queue holds. -/
  capacity : Nat
  /-- The changes under way, by the components of their paths. -/
  pending : Std.TreeMap (List String) PendingChange
  /-- The queue, its front first. -/
  queue : List FileChange
  /-- The number of events dropped. -/
  dropped : Nat
  deriving Inhabited

namespace Tracker

/-- The tracker without changes. Its queue holds at least one. -/
def new (window : Duration) (capacity : Nat) : Tracker := ⟨window, max capacity 1, ∅, [], 0⟩

/-- The change under way at a path. -/
def pendingAt? (t : Tracker) (path : FilePath) : Option PendingChange :=
  t.pending[path.components]?

/-- The window of a change under way is open. -/
def isInWindow (t : Tracker) (now : Nat) (p : PendingChange) : Bool :=
  now - p.lastSeen < t.window.nanoseconds

/-- Puts a change at the end of the queue. If the queue is full the change is dropped, and
nothing is under way at its path any more. -/
def offer (t : Tracker) (c : FileChange) : EventOutcome × Tracker :=
  if t.queue.length < t.capacity then (.queued, { t with queue := t.queue ++ [c] })
  else
    (.dropped,
      { t with pending := t.pending.erase c.path.components, dropped := t.dropped + 1 })

/-- Notes that a change is under way at a path. -/
def note (t : Tracker) (path : FilePath) (p : PendingChange) : Tracker :=
  { t with pending := t.pending.insert path.components p }

/-- Records an event. -/
def record (t : Tracker) (now : Nat) (event : FileChange) : EventOutcome × Tracker :=
  match (t.pendingAt? event.path).filter (t.isInWindow now) with
  | some p => (.merged, t.note event.path ⟨now, p.change.merge event.change⟩)
  | none => (t.note event.path ⟨now, event.change⟩).offer event

/-- Takes the change at the front of the queue. While the window of its path is open it goes
back to the end. -/
def next (t : Tracker) (now : Nat) : Option FileChange × Tracker :=
  match t.queue with
  | [] => (none, t)
  | c :: rest =>
      let taken := { t with queue := rest }
      match t.pendingAt? c.path with
      | none => (some c, taken)
      | some p =>
          if t.isInWindow now p then (none, (taken.offer c).2)
          else
            (some ⟨c.path, p.change⟩,
              { taken with pending := t.pending.erase c.path.components })

end Tracker

end ProgramGraph
