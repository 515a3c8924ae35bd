import Mathlib.Data.List.Rotate
import ProgramGraph.Proofs.Map
import ProgramGraph.Sync.Tracker

set_option autoImplicit false

/-! # What a tracker delivers for a path

A path whose changes are taken slowly can have several changes in the queue, but only one change
under way. The first of them to be taken carries what was merged and ends the change under way; the
others then carry only what each of them was queued with, and so does the last one.

Looked at from one path a tracker is a small machine: the change under way, and the changes that wait
(`PathState`). A call does one of a few things to it (`PathStep`), whatever happens at other paths and
whatever the clock says (`Tracker.pathStep_actionAt`). From its runs it follows what is delivered since
an event was queued, up to the moment when nothing waits any more (`Tracker.delivered_since_queued`):
first the merge of the event with all that was merged into it, and then the other changes that waited,
each as it was queued. So the merge is delivered last if nothing waited at the path, and in general it
is not (`Tracker.delivered_last_not_merge`).
-/

namespace ProgramGraph

/-! ## One path -/

/-- What a tracker has for one path. -/
structure PathState where
  /-- The change under way. -/
  pending : Option Change
  /-- The changes in the queue, the front first. -/
  waiting : List Change
  deriving DecidableEq

/-- What shows of a call at one path. -/
inductive PathAction where
  | quiet
  | queued (c : Change)
  | merged (c : Change)
  | dropped
  | delivered (c : Change)
  deriving DecidableEq

/-- What a call may do at one path. -/
inductive PathStep : PathState → PathAction → PathState → Prop where
  | idle (s : PathState) : PathStep s .quiet s
  /-- The change in front goes to the end. -/
  | turn (p c : Change) (rest : List Change) :
      PathStep ⟨some p, c :: rest⟩ .quiet ⟨some p, rest ++ [c]⟩
  | queue (s : PathState) (c : Change) : PathStep s (.queued c) ⟨some c, s.waiting ++ [c]⟩
  | merge (p c : Change) (waiting : List Change) :
      PathStep ⟨some p, waiting⟩ (.merged c) ⟨some (p.merge c), waiting⟩
  | drop (s : PathState) : PathStep s .dropped ⟨none, s.waiting⟩
  /-- The change in front is taken and carries what was merged. -/
  | deliverMerged (p c : Change) (rest : List Change) :
      PathStep ⟨some p, c :: rest⟩ (.delivered p) ⟨none, rest⟩
  /-- The change in front is taken as it was queued. -/
  | deliverQueued (c : Change) (rest : List Change) :
      PathStep ⟨none, c :: rest⟩ (.delivered c) ⟨none, rest⟩

/-- What calls one after the other may do at one path. -/
inductive PathRun : PathState → List PathAction → PathState → Prop where
  | nil (s : PathState) : PathRun s [] s
  | cons {s s₁ s₂ : PathState} {a : PathAction} {rest : List PathAction} (step : PathStep s a s₁)
      (run : PathRun s₁ rest s₂) : PathRun s (a :: rest) s₂

theorem PathStep.eq_of_queued {s s' : PathState} {c : Change} (h : PathStep s (.queued c) s') :
    s' = ⟨some c, s.waiting ++ [c]⟩ := by
  cases h
  rfl

namespace PathAction

/-- What is delivered. -/
def delivered? : PathAction → Option Change
  | .delivered c => some c
  | _ => none

/-- What is merged into the change under way. -/
def merged? : PathAction → Option Change
  | .merged c => some c
  | _ => none

/-- The path is not begun anew: no event of it is queued, and none is dropped. -/
def Continues (actions : List PathAction) : Prop := ∀ a ∈ actions, a ≠ .dropped ∧ ∀ c, a ≠ .queued c

theorem Continues.tail {a : PathAction} {rest : List PathAction} (h : Continues (a :: rest)) :
    Continues rest := fun b hb => h b (List.mem_cons_of_mem a hb)

end PathAction

namespace PathRun

open PathAction

variable {s s' : PathState} {actions : List PathAction}

/-- With no change under way all that waits is delivered as it was queued. -/
theorem delivered_of_none (h : PathRun s actions s') (hnone : s.pending = none)
    (hcontinues : Continues actions) (hend : s'.waiting = []) :
    actions.filterMap delivered? = s.waiting ∧ actions.filterMap merged? = [] := by
  induction h with
  | nil s => exact ⟨hend.symm, rfl⟩
  | @cons s s₁ s₂ a rest step run ih =>
      have hrest := hcontinues.tail
      obtain ⟨hdropped, hqueued⟩ := hcontinues a List.mem_cons_self
      cases step with
      | idle => exact ih hnone hrest hend
      | deliverQueued c rest' =>
          obtain ⟨hdelivered, hmerged⟩ := ih rfl hrest hend
          exact ⟨congrArg (c :: ·) hdelivered, hmerged⟩
      | queue => exact absurd rfl (hqueued _)
      | drop => exact absurd rfl hdropped
      -- The other steps need a change under way.
      | turn | merge | deliverMerged => cases hnone

/-- **With a change under way** its merge is delivered first, and then all that waits but for the
change that was taken for it. Until then the queue may have turned. -/
theorem delivered_of_some (h : PathRun s actions s') {p : Change} (hpending : s.pending = some p)
    (hwaiting : s.waiting ≠ []) (hcontinues : Continues actions) (hend : s'.waiting = []) :
    ∃ turns, actions.filterMap delivered? =
      (actions.filterMap merged?).foldl Change.merge p :: (s.waiting.rotate turns).tail := by
  induction h generalizing p with
  | nil s => exact absurd hend hwaiting
  | @cons s s₁ s₂ a rest step run ih =>
      have hrest := hcontinues.tail
      obtain ⟨hdropped, hqueued⟩ := hcontinues a List.mem_cons_self
      cases step with
      | idle => exact ih hpending hwaiting hrest hend
      -- a turn rotates what waits, and delivers nothing
      | turn q c waiting =>
          have hturned : waiting ++ [c] ≠ [] := List.append_ne_nil_of_right_ne_nil _ (List.cons_ne_nil c [])
          obtain ⟨turns, hdelivered⟩ := ih hpending hturned hrest hend
          refine ⟨turns + 1, ?_⟩
          rw [List.rotate_cons_succ]
          exact hdelivered
      | merge q c waiting =>
          obtain rfl : q = p := Option.some.inj hpending
          exact ih rfl hwaiting hrest hend
      -- from here on no change is under way, and the rest comes as it was queued
      | deliverMerged q c waiting =>
          obtain rfl : q = p := Option.some.inj hpending
          obtain ⟨hdelivered, hmerged⟩ := run.delivered_of_none rfl hrest hend
          refine ⟨0, ?_⟩
          show q :: rest.filterMap delivered? = (rest.filterMap merged?).foldl Change.merge q :: _
          rw [hdelivered, hmerged, List.rotate_zero]
          rfl
      | queue => exact absurd rfl (hqueued _)
      | drop => exact absurd rfl hdropped
      | deliverQueued => cases hpending

end PathRun

/-! ## A tracker -/

/-- A call of a tracker. -/
inductive TrackerCall where
  | record (now : Nat) (event : FileChange)
  | next (now : Nat)
  deriving DecidableEq

namespace Tracker

/-- The changes of a path among those of a queue. -/
def changesAt (path : FilePath) (queue : List FileChange) : List Change :=
  (queue.filter fun c => c.path.components = path.components).map FileChange.change

/-- The tracker after a call. -/
def after (t : Tracker) : TrackerCall → Tracker
  | .record now event => (t.record now event).2
  | .next now => (t.next now).2

/-- The tracker after calls. -/
def run (t : Tracker) (calls : List TrackerCall) : Tracker := calls.foldl after t

/-- The changes of a path that are in the queue. -/
def waitingAt (t : Tracker) (path : FilePath) : List Change := changesAt path t.queue

/-- What the tracker has for a path. -/
def stateAt (t : Tracker) (path : FilePath) : PathState :=
  ⟨(t.pendingAt? path).map PendingChange.change, t.waitingAt path⟩

/-- What shows of a call at a path. -/
def actionAt (t : Tracker) (path : FilePath) : TrackerCall → PathAction
  | .record now event =>
      if event.path.components = path.components then
        match (t.record now event).1 with
        | .queued => .queued event.change
        | .merged => .merged event.change
        | .dropped => .dropped
      else .quiet
  | .next now =>
      match (t.next now).1 with
      | some c => if c.path.components = path.components then .delivered c.change else .quiet
      | none => .quiet

/-- What shows of calls at a path. -/
def actionsAt (t : Tracker) (path : FilePath) : List TrackerCall → List PathAction
  | [] => []
  | call :: rest => t.actionAt path call :: (t.after call).actionsAt path rest

/-- The changes delivered for a path. -/
def deliveredAt (t : Tracker) (path : FilePath) (calls : List TrackerCall) : List Change :=
  (t.actionsAt path calls).filterMap PathAction.delivered?

/-- The changes merged at a path. -/
def mergedAt (t : Tracker) (path : FilePath) (calls : List TrackerCall) : List Change :=
  (t.actionsAt path calls).filterMap PathAction.merged?

/-- The queue holds no more than it may. -/
def IsBounded (t : Tracker) : Prop := t.queue.length ≤ t.capacity

variable {t : Tracker} {path : FilePath}

/-! ### What a call does -/

/-- **Recording** merges, queues or drops the event. -/
theorem record_cases (t : Tracker) (now : Nat) (event : FileChange) :
    (∃ p, t.pendingAt? event.path = some p ∧
      t.record now event = (.merged, t.note event.path ⟨now, p.change.merge event.change⟩)) ∨
    (t.queue.length < t.capacity ∧ t.record now event =
      (.queued, { t.note event.path ⟨now, event.change⟩ with queue := t.queue ++ [event] })) ∨
    t.record now event = (.dropped, { t.note event.path ⟨now, event.change⟩ with
      pending := (t.note event.path ⟨now, event.change⟩).pending.erase event.path.components
      dropped := t.dropped + 1 }) := by
  unfold record
  cases hfound : (t.pendingAt? event.path).filter (t.isInWindow now) with
  | some p => exact .inl ⟨p, Option.eq_some_of_filter_eq_some hfound, rfl⟩
  | none =>
      by_cases hroom : t.queue.length < t.capacity
      · exact .inr (.inl ⟨hroom, if_pos hroom⟩)
      · exact .inr (.inr (if_neg hroom))

/-- **Taking** finds nothing, or the change in front: as it was queued, still too early, or ready. -/
theorem next_cases (hbounded : t.IsBounded) (now : Nat) :
    (t.queue = [] ∧ t.next now = (none, t)) ∨
    ∃ c rest, t.queue = c :: rest ∧
      ((t.pendingAt? c.path = none ∧ t.next now = (some c, { t with queue := rest })) ∨
        ∃ p, t.pendingAt? c.path = some p ∧
          (t.next now = (none, { t with queue := rest ++ [c] }) ∨
            t.next now = (some ⟨c.path, p.change⟩,
              { t with queue := rest, pending := t.pending.erase c.path.components }))) := by
  unfold next
  cases hqueue : t.queue with
  | nil => exact .inl ⟨rfl, rfl⟩
  | cons c rest =>
      refine .inr ⟨c, rest, rfl, ?_⟩
      have htaken : ({ t with queue := rest } : Tracker).pendingAt? c.path = t.pendingAt? c.path := rfl
      cases hpending : t.pendingAt? c.path with
      | none => exact .inl ⟨rfl, by simp only [hpending]⟩
      | some p =>
          refine .inr ⟨p, rfl, ?_⟩
          -- the change that was taken left room, so that putting it back is never refused
          have hroom : rest.length < t.capacity := by
            have hlength : t.queue.length = rest.length + 1 := by rw [hqueue, List.length_cons]
            have := hbounded
            unfold IsBounded at this
            omega
          cases hopen : t.isInWindow now p with
          | true => exact .inl (by simp only [hpending, hopen, if_true, offer, if_pos hroom])
          | false => exact .inr (by simp [hpending, hopen])

/-! ### What a call does at a path -/

theorem pendingAt?_note (t : Tracker) (place path : FilePath) (p : PendingChange) :
    (t.note place p).pendingAt? path =
      if path.components = place.components then some p else t.pendingAt? path :=
  getElem?_inserted t.pending place.components p path.components

theorem pendingAt?_erase (t : Tracker) (place path : FilePath) :
    ({ t with pending := t.pending.erase place.components } : Tracker).pendingAt? path =
      if path.components = place.components then none else t.pendingAt? path :=
  getElem?_erased t.pending place.components path.components

theorem changesAt_append (queue : List FileChange) (c : FileChange) (path : FilePath) :
    changesAt path (queue ++ [c]) =
      changesAt path queue ++ if c.path.components = path.components then [c.change] else [] := by
  by_cases hsame : c.path.components = path.components <;> simp [changesAt, hsame]

theorem changesAt_cons (c : FileChange) (queue : List FileChange) (path : FilePath) :
    changesAt path (c :: queue) =
      (if c.path.components = path.components then [c.change] else []) ++ changesAt path queue := by
  by_cases hsame : c.path.components = path.components <;> simp [changesAt, hsame]

theorem stateAt_eq {p : Option PendingChange} {waiting : List Change}
    (hpending : t.pendingAt? path = p) (hwaiting : changesAt path t.queue = waiting) :
    t.stateAt path = ⟨p.map PendingChange.change, waiting⟩ := by
  rw [stateAt, waitingAt, hpending, hwaiting]

/-- An event at another path changes nothing here. -/
theorem stateAt_record_elsewhere {event : FileChange} (hother : path.components ≠ event.path.components)
    (now : Nat) : (t.record now event).2.stateAt path = t.stateAt path := by
  have hnoted : ∀ p, (t.note event.path p).pendingAt? path = t.pendingAt? path := fun p => by
    rw [pendingAt?_note, if_neg hother]
  obtain ⟨p, -, hrecord⟩ | ⟨-, hrecord⟩ | hrecord := t.record_cases now event
  · rw [hrecord]
    exact stateAt_eq (hnoted _) rfl
  · have hqueue := changesAt_append t.queue event path
    rw [if_neg hother.symm, List.append_nil] at hqueue
    rw [hrecord]
    exact stateAt_eq (hnoted ⟨now, event.change⟩) hqueue
  · have herased := (t.note event.path ⟨now, event.change⟩).pendingAt?_erase event.path path
    rw [if_neg hother, hnoted] at herased
    rw [hrecord]
    exact stateAt_eq herased rfl

/-- **Recording** at one path. -/
theorem pathStep_record (t : Tracker) (path : FilePath) (now : Nat) (event : FileChange) :
    PathStep (t.stateAt path) (t.actionAt path (.record now event))
      ((t.record now event).2.stateAt path) := by
  by_cases hsame : event.path.components = path.components
  · have haction : t.actionAt path (.record now event) = match (t.record now event).1 with
        | .queued => .queued event.change
        | .merged => .merged event.change
        | .dropped => .dropped := if_pos hsame
    have hnoted : ∀ p, (t.note event.path p).pendingAt? path = some p := fun p => by
      rw [pendingAt?_note, if_pos hsame.symm]
    -- The event is merged, finds room in the queue, or is dropped and no longer noted.
    obtain ⟨p, hp, hrecord⟩ | ⟨-, hrecord⟩ | hrecord := t.record_cases now event
    · have hbefore : t.pendingAt? path = some p := by
        rw [← hp, pendingAt?, pendingAt?, hsame]
      have hstate : (t.record now event).2.stateAt path =
          ⟨some (p.change.merge event.change), t.waitingAt path⟩ := by
        rw [hrecord]
        exact stateAt_eq (hnoted _) rfl
      rw [haction, hstate, hrecord, stateAt_eq hbefore rfl]
      exact .merge p.change event.change (t.waitingAt path)
    · have hqueue := changesAt_append t.queue event path
      rw [if_pos hsame] at hqueue
      have hstate : (t.record now event).2.stateAt path =
          ⟨some event.change, t.waitingAt path ++ [event.change]⟩ := by
        rw [hrecord]
        exact stateAt_eq (p := some ⟨now, event.change⟩) (hnoted _) hqueue
      rw [haction, hstate, hrecord]
      exact .queue (t.stateAt path) event.change
    · have herased := (t.note event.path ⟨now, event.change⟩).pendingAt?_erase event.path path
      rw [if_pos hsame.symm] at herased
      have hstate : (t.record now event).2.stateAt path = ⟨none, t.waitingAt path⟩ := by
        rw [hrecord]
        exact stateAt_eq herased rfl
      rw [haction, hstate, hrecord]
      exact .drop (t.stateAt path)
  · have haction : t.actionAt path (.record now event) = .quiet := if_neg hsame
    rw [haction, stateAt_record_elsewhere (Ne.symm hsame)]
    exact .idle (t.stateAt path)

/-- Taking a change of another path does not show here, whether it is delivered or too early. -/
theorem next_unseen (hbounded : t.IsBounded) {c : FileChange} {rest : List FileChange}
    (hqueue : t.queue = c :: rest) (hother : path.components ≠ c.path.components) (now : Nat) :
    t.actionAt path (.next now) = .quiet ∧ (t.next now).2.stateAt path = t.stateAt path := by
  -- the change in front is not of this path, wherever it ends up
  have hfront : changesAt path t.queue = changesAt path rest := by
    rw [hqueue, changesAt_cons, if_neg hother.symm, List.nil_append]
  obtain ⟨hempty, -⟩ | ⟨c', rest', hqueue', htaken⟩ := next_cases hbounded now
  · rw [hqueue] at hempty
    cases hempty
  obtain ⟨rfl, rfl⟩ := List.cons.inj (hqueue.symm.trans hqueue')
  obtain ⟨-, hnext⟩ | ⟨p, -, hnext | hnext⟩ := htaken
  · rw [actionAt, hnext]
    exact ⟨if_neg hother.symm, stateAt_eq rfl hfront.symm⟩
  · have hback := changesAt_append rest c path
    rw [if_neg hother.symm, List.append_nil] at hback
    rw [actionAt, hnext]
    exact ⟨rfl, stateAt_eq rfl (hback.trans hfront.symm)⟩
  · have herased := t.pendingAt?_erase c.path path
    rw [if_neg hother] at herased
    rw [actionAt, hnext]
    exact ⟨if_neg hother.symm, stateAt_eq herased hfront.symm⟩

/-- **Taking** at one path. -/
theorem pathStep_next (hbounded : t.IsBounded) (path : FilePath) (now : Nat) :
    PathStep (t.stateAt path) (t.actionAt path (.next now)) ((t.next now).2.stateAt path) := by
  obtain ⟨-, hnext⟩ | ⟨c, rest, hqueue, htaken⟩ := next_cases hbounded now
  · rw [actionAt, hnext]
    exact .idle (t.stateAt path)
  by_cases hsame : c.path.components = path.components
  · have hpath : t.pendingAt? c.path = t.pendingAt? path := by rw [pendingAt?, pendingAt?, hsame]
    have hfront : changesAt path t.queue = c.change :: changesAt path rest := by
      rw [hqueue, changesAt_cons, if_pos hsame, List.singleton_append]
    rw [hpath] at htaken
    -- Nothing is noted any more, or what is noted is still in the window, or it is delivered.
    obtain ⟨hpending, hnext⟩ | ⟨p, hpending, hnext | hnext⟩ := htaken
    · have haction : t.actionAt path (.next now) = .delivered c.change := by
        rw [actionAt, hnext]
        exact if_pos hsame
      have hstate : (t.next now).2.stateAt path = ⟨none, changesAt path rest⟩ := by
        rw [hnext]
        exact stateAt_eq (p := none) hpending rfl
      rw [haction, hstate, stateAt_eq hpending hfront]
      exact .deliverQueued c.change (changesAt path rest)
    · have haction : t.actionAt path (.next now) = .quiet := by rw [actionAt, hnext]
      have hback := changesAt_append rest c path
      rw [if_pos hsame] at hback
      have hstate : (t.next now).2.stateAt path =
          ⟨some p.change, changesAt path rest ++ [c.change]⟩ := by
        rw [hnext]
        exact stateAt_eq (p := some p) hpending hback
      rw [haction, hstate, stateAt_eq hpending hfront]
      exact .turn p.change c.change (changesAt path rest)
    · have haction : t.actionAt path (.next now) = .delivered p.change := by
        rw [actionAt, hnext]
        exact if_pos hsame
      have herased := t.pendingAt?_erase c.path path
      rw [if_pos hsame.symm] at herased
      have hstate : (t.next now).2.stateAt path = ⟨none, changesAt path rest⟩ := by
        rw [hnext]
        exact stateAt_eq (p := none) herased rfl
      rw [haction, hstate, stateAt_eq hpending hfront]
      exact .deliverMerged p.change c.change (changesAt path rest)
  · obtain ⟨haction, hstate⟩ := next_unseen hbounded hqueue (Ne.symm hsame) now
    rw [haction, hstate]
    exact .idle (t.stateAt path)

/-! ### Calls one after the other -/

theorem isBounded_new (window : Duration) (capacity : Nat) : (new window capacity).IsBounded :=
  Nat.zero_le _

/-- A call keeps the queue within its capacity. -/
theorem IsBounded.after (h : t.IsBounded) (call : TrackerCall) : (t.after call).IsBounded := by
  unfold IsBounded at h
  cases call with
  | record now event =>
      rw [Tracker.after]
      obtain ⟨p, -, hrecord⟩ | ⟨hroom, hrecord⟩ | hrecord := t.record_cases now event
      · rw [hrecord]
        exact h
      · rw [hrecord]
        show (t.queue ++ [event]).length ≤ t.capacity
        rw [List.length_append, List.length_singleton]
        exact hroom
      · rw [hrecord]
        exact h
  | next now =>
      rw [Tracker.after]
      obtain ⟨-, hnext⟩ | ⟨c, rest, hqueue, htaken⟩ := next_cases h now
      · rw [hnext]
        exact h
      have hlength : rest.length + 1 ≤ t.capacity := by
        rw [hqueue, List.length_cons] at h
        exact h
      obtain ⟨-, hnext⟩ | ⟨p, -, hnext | hnext⟩ := htaken
      · rw [hnext]
        exact Nat.le_of_succ_le hlength
      · rw [hnext]
        show (rest ++ [c]).length ≤ t.capacity
        rw [List.length_append, List.length_singleton]
        exact hlength
      · rw [hnext]
        exact Nat.le_of_succ_le hlength

/-- **One call** is one step at every path. -/
theorem pathStep_actionAt (h : t.IsBounded) (path : FilePath) (call : TrackerCall) :
    PathStep (t.stateAt path) (t.actionAt path call) ((t.after call).stateAt path) := by
  cases call with
  | record now event => exact t.pathStep_record path now event
  | next now => exact pathStep_next h path now

/-- **Calls** are a run at every path. -/
theorem pathRun_actionsAt (h : t.IsBounded) (path : FilePath) (calls : List TrackerCall) :
    PathRun (t.stateAt path) (t.actionsAt path calls) ((t.run calls).stateAt path) := by
  induction calls generalizing t with
  | nil => exact .nil (t.stateAt path)
  | cons call rest ih => exact .cons (pathStep_actionAt h path call) (ih (h.after call))

theorem IsBounded.run (h : t.IsBounded) (calls : List TrackerCall) : (t.run calls).IsBounded := by
  induction calls generalizing t with
  | nil => exact h
  | cons call rest ih => exact ih (h.after call)

/-! ## What is delivered since an event was queued -/

/-- **What is delivered for a path** since an event was queued there, if no later event of it is
queued or dropped and the queue is drained: first the merge of the event with all that was merged into
it, and then the changes that waited at the path, except one, as they were queued. The merge is the
last change delivered for the path if nothing waited there. -/
theorem delivered_since_queued {window : Duration} {capacity now : Nat} {event : FileChange}
    {before later : List TrackerCall} {t t' : Tracker} (ht : t = (new window capacity).run before)
    (ht' : t' = t.after (.record now event)) (hqueued : (t.record now event).1 = .queued)
    (hcontinues : PathAction.Continues (t'.actionsAt event.path later))
    (hdrained : (t'.run later).queue = []) :
    (∃ turns, t'.deliveredAt event.path later =
        (t'.mergedAt event.path later).foldl Change.merge event.change ::
          ((t.waitingAt event.path ++ [event.change]).rotate turns).tail) ∧
      (t.waitingAt event.path = [] → t'.deliveredAt event.path later =
        [(t'.mergedAt event.path later).foldl Change.merge event.change]) := by
  have hbounded : t.IsBounded := ht ▸ (isBounded_new window capacity).run before
  have hbounded' : t'.IsBounded := ht' ▸ hbounded.after (.record now event)
  -- The event is under way at its path and waits there behind the others.
  have hstate : t'.stateAt event.path =
      ⟨some event.change, t.waitingAt event.path ++ [event.change]⟩ := by
    have haction : t.actionAt event.path (.record now event) = .queued event.change := by
      rw [actionAt, if_pos rfl, hqueued]
    have hstep := t.pathStep_record event.path now event
    rw [haction] at hstep
    rw [ht']
    exact hstep.eq_of_queued
  have hrun := pathRun_actionsAt hbounded' event.path later
  have hend : ((t'.run later).stateAt event.path).waiting = [] := by
    rw [stateAt, waitingAt, hdrained]
    rfl
  rw [hstate] at hrun
  obtain ⟨turns, hdelivered⟩ := hrun.delivered_of_some rfl
    (List.append_ne_nil_of_right_ne_nil _ (List.cons_ne_nil event.change [])) hcontinues hend
  refine ⟨⟨turns, hdelivered⟩, fun hnone => ?_⟩
  rw [deliveredAt, hdelivered, hnone, List.nil_append, List.rotate_singleton]
  rfl

/-- Two changes wait at the path, and the deletion at moment 21 is merged into the second of them. -/
theorem delivered_since_queued_leftover :
    let event : FileChange := ⟨⟨"a.py"⟩, .create⟩
    let t := (new ⟨10, by decide⟩ 4).run [.record 0 event]
    let t' := t.after (.record 20 event)
    let later := [.record 21 ⟨⟨"a.py"⟩, .delete⟩, .next 40, .next 41]
    ((t.record 20 event).1 = .queued ∧ PathAction.Continues (t'.actionsAt event.path later) ∧
        (t'.run later).queue = []) ∧
      (∃ turns, t'.deliveredAt event.path later =
        (t'.mergedAt event.path later).foldl Change.merge event.change ::
          ((t.waitingAt event.path ++ [event.change]).rotate turns).tail) ∧
      (t.waitingAt event.path = [] → t'.deliveredAt event.path later =
        [(t'.mergedAt event.path later).foldl Change.merge event.change]) := by
  intro event t t' later
  have hqueued : (t.record 20 event).1 = .queued := by decide +kernel
  have hactions : t'.actionsAt event.path later =
      [.merged .delete, .delivered .delete, .delivered .create] := by decide +kernel
  have hcontinues : PathAction.Continues (t'.actionsAt event.path later) := by
    rw [hactions]
    simp [PathAction.Continues]
  have hdrained : (t'.run later).queue = [] := by decide +kernel
  exact ⟨⟨hqueued, hcontinues, hdrained⟩, delivered_since_queued rfl rfl hqueued hcontinues hdrained⟩

/-- **The last change delivered need not be the merge**: the deletion goes out with the first of the two
changes, and the second goes out as the creation it was queued as. No event is dropped, and the moments
of the calls do not decrease. -/
theorem delivered_last_not_merge :
    let event : FileChange := ⟨⟨"a.py"⟩, .create⟩
    let t := (new ⟨10, by decide⟩ 4).run [.record 0 event]
    let t' := t.after (.record 20 event)
    let later := [.record 21 ⟨⟨"a.py"⟩, .delete⟩, .next 40, .next 41]
    (t.record 20 event).1 = .queued ∧ (t'.record 21 ⟨⟨"a.py"⟩, .delete⟩).1 = .merged ∧
      (t'.run later).queue = [] ∧ (t'.run later).dropped = 0 ∧
      (t'.mergedAt event.path later).foldl Change.merge event.change = .delete ∧
      (t'.deliveredAt event.path later).getLast? = some .create := by
  decide +kernel

end Tracker

end ProgramGraph
