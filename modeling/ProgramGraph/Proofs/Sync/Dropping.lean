import ProgramGraph.Proofs.Sync.Accounting

set_option autoImplicit false

/-! # What a dropped event leaves behind

An event that finds the queue full is dropped, and with it whatever was under way at its path, because
the event is noted there before the queue is tried. So a dropped event leaves no trace just if nothing was
under way at its path; otherwise the change that waits there no longer carries what was merged into it
(`Tracker.record_dropped`, `Tracker.record_dropped_loses`).

Whether that ever shows is a question about everything that may still be called. Two trackers answer alike
from a moment on if they have the same queue and, at every path, the same change under way as long as its
window is open, and the same change that is due (`Tracker.Alike`). A call keeps this (`Tracker.Alike.after`),
since it touches a single place, and what it puts there follows from what shows of it (`Tracker.Touches`).
When an event is dropped the window of its path is closed, so only the change that is due can differ, and
taking one change after the other brings it to light (`Tracker.deliveredAt_replicate_next`).
-/

namespace ProgramGraph

/-- The moment of a call. -/
def TrackerCall.moment : TrackerCall → Nat
  | .record now _ => now
  | .next now => now

/-- The change that is delivered next at a path: what is under way, or else what was queued. -/
def PathState.due? (s : PathState) : Option Change := s.waiting.head?.map s.pending.getD

namespace Tracker

/-! ## What shows at a path -/

/-- The change under way at a path, while its window is open. -/
def openAt? (t : Tracker) (now : Nat) (path : FilePath) : Option PendingChange :=
  (t.pendingAt? path).filter (t.isInWindow now)

/-- The change that is delivered next at a path. -/
def dueAt? (t : Tracker) (path : FilePath) : Option Change := (t.stateAt path).due?

variable {t t' t₁ t₁' : Tracker} {now : Nat} {path place : FilePath}

theorem pendingAt?_congr (h : path.components = place.components) : t.pendingAt? path = t.pendingAt? place := by
  rw [pendingAt?, pendingAt?, h]

theorem openAt?_congr (h : path.components = place.components) :
    t.openAt? now path = t.openAt? now place := by
  rw [openAt?, openAt?, pendingAt?_congr h]

theorem isInWindow_later {p : PendingChange} {later : Nat} (h : t.isInWindow now p = false)
    (hlater : now ≤ later) : t.isInWindow later p = false := by
  simp only [isInWindow, decide_eq_false_iff_not, Nat.not_lt] at h ⊢
  omega

/-- A closed window stays closed. -/
theorem openAt?_later {later : Nat} (h : t.openAt? now path = none) (hlater : now ≤ later) :
    t.openAt? later path = none := by
  unfold openAt? at h ⊢
  cases hpending : t.pendingAt? path with
  | none => rfl
  | some p =>
      rw [hpending, Option.filter_eq_none_iff] at h
      have hclosed : t.isInWindow now p = false := by simpa using h p rfl
      rw [Option.filter_some, isInWindow_later hclosed hlater, if_neg Bool.false_ne_true]

theorem dueAt?_eq (t : Tracker) (path : FilePath) : t.dueAt? path =
    (t.queue.find? fun c => c.path.components = path.components).map fun c =>
      ((t.pendingAt? path).map PendingChange.change).getD c.change := by
  rw [dueAt?, PathState.due?, stateAt, waitingAt, changesAt, List.head?_map, List.head?_filter, Option.map_map]
  rfl

theorem dueAt?_congr (h : path.components = place.components) : t.dueAt? path = t.dueAt? place := by
  rw [dueAt?_eq, dueAt?_eq, pendingAt?_congr h, h]

/-- With nothing under way the first change in the queue is due. -/
theorem dueAt?_of_none (h : t.pendingAt? path = none) : t.dueAt? path = (t.waitingAt path).head? := by
  rw [dueAt?, stateAt, h]
  exact congrFun Option.map_id _

/-- With a change under way it is due, if anything waits. -/
theorem dueAt?_of_some {p : PendingChange} (h : t.pendingAt? path = some p) (hwaiting : t.waitingAt path ≠ []) :
    t.dueAt? path = some p.change := by
  obtain ⟨d, hd⟩ := Option.isSome_iff_exists.mp (List.isSome_head?.mpr hwaiting)
  rw [dueAt?, stateAt, h, PathState.due?, hd]
  rfl

/-! ## The place that a call touches -/

/-- A call leaves a queue and, at one place, what is under way there. Elsewhere nothing changes. -/
structure Touches (t : Tracker) (place : FilePath) (p : Option PendingChange) (queue : List FileChange)
    (t₁ : Tracker) : Prop where
  window : t₁.window = t.window
  capacity : t₁.capacity = t.capacity
  queue : t₁.queue = queue
  here : ∀ path, path.components = place.components → t₁.pendingAt? path = p
  pendingElsewhere : ∀ path, path.components ≠ place.components → t₁.pendingAt? path = t.pendingAt? path
  waitingElsewhere : ∀ path, path.components ≠ place.components → t₁.waitingAt path = t.waitingAt path

namespace Touches

variable {p : Option PendingChange} {queue : List FileChange}

theorem isInWindow (h : t.Touches place p queue t₁) : t₁.isInWindow now = t.isInWindow now := by
  funext q
  rw [Tracker.isInWindow, Tracker.isInWindow, h.window]

theorem openAt?_elsewhere (h : t.Touches place p queue t₁) (hother : path.components ≠ place.components) :
    t₁.openAt? now path = t.openAt? now path := by
  rw [openAt?, openAt?, h.pendingElsewhere path hother, h.isInWindow]

theorem dueAt?_elsewhere (h : t.Touches place p queue t₁) (hother : path.components ≠ place.components) :
    t₁.dueAt? path = t.dueAt? path := by
  rw [dueAt?, dueAt?, stateAt, stateAt, h.pendingElsewhere path hother, h.waitingElsewhere path hother]

end Touches

theorem touches_note (t : Tracker) (place : FilePath) (p : PendingChange) :
    t.Touches place (some p) t.queue (t.note place p) where
  window := rfl
  capacity := rfl
  queue := rfl
  here := fun path hsame => by rw [pendingAt?_note, if_pos hsame]
  pendingElsewhere := fun path hother => by rw [pendingAt?_note, if_neg hother]
  waitingElsewhere := fun _ _ => rfl

/-- Recording into an open window. -/
theorem record_of_open {event : FileChange} {p : PendingChange} (h : t.openAt? now event.path = some p) :
    (t.record now event).1 = .merged ∧
      t.Touches event.path (some ⟨now, p.change.merge event.change⟩) t.queue (t.record now event).2 := by
  have hrecord : t.record now event = (.merged, t.note event.path ⟨now, p.change.merge event.change⟩) := by
    rw [record, ← openAt?, h]
  rw [hrecord]
  exact ⟨rfl, t.touches_note event.path _⟩

/-- Recording with room in the queue. -/
theorem record_of_room {event : FileChange} (h : t.openAt? now event.path = none)
    (hroom : t.queue.length < t.capacity) :
    (t.record now event).1 = .queued ∧
      t.Touches event.path (some ⟨now, event.change⟩) (t.queue ++ [event]) (t.record now event).2 := by
  have hrecord : t.record now event =
      (.queued, { t.note event.path ⟨now, event.change⟩ with queue := t.queue ++ [event] }) := by
    rw [record, ← openAt?, h]
    exact if_pos hroom
  obtain ⟨hwindow, hcapacity, -, hhere, helsewhere, -⟩ := t.touches_note event.path ⟨now, event.change⟩
  rw [hrecord]
  refine ⟨rfl, hwindow, hcapacity, rfl, hhere, helsewhere, fun path hother => ?_⟩
  have hwaiting := changesAt_append t.queue event path
  rwa [if_neg hother.symm, List.append_nil] at hwaiting

/-- Recording with a full queue. -/
theorem record_of_full {event : FileChange} (h : t.openAt? now event.path = none)
    (hfull : ¬t.queue.length < t.capacity) :
    ((t.record now event).1 = .dropped ∧ (t.record now event).2.dropped = t.dropped + 1) ∧
      t.Touches event.path none t.queue (t.record now event).2 := by
  let noted := t.note event.path ⟨now, event.change⟩
  have hrecord : t.record now event = (.dropped,
      { noted with pending := noted.pending.erase event.path.components, dropped := t.dropped + 1 }) := by
    rw [record, ← openAt?, h]
    exact if_neg hfull
  have herased := fun path => noted.pendingAt?_erase event.path path
  rw [hrecord]
  refine ⟨⟨rfl, rfl⟩, rfl, rfl, rfl, fun path hsame => ?_, fun path hother => ?_, fun _ _ => rfl⟩
  · exact (herased path).trans (if_pos hsame)
  · exact ((herased path).trans (if_neg hother)).trans ((t.pendingAt?_note ..).trans (if_neg hother))

/-- Taking while the window of the change in front is open. -/
theorem next_of_open (hbounded : t.IsBounded) {c : FileChange} {rest : List FileChange} {p : PendingChange}
    (hqueue : t.queue = c :: rest) (h : t.openAt? now c.path = some p) :
    (t.next now).1 = none ∧ t.Touches c.path (some p) (rest ++ [c]) (t.next now).2 := by
  have hpending : t.pendingAt? c.path = some p := Option.eq_some_of_filter_eq_some h
  have hopen : t.isInWindow now p = true := (Option.filter_eq_some_iff.mp h).2
  have hroom : rest.length < t.capacity := by
    have hlength : t.queue.length ≤ t.capacity := hbounded
    rw [hqueue, List.length_cons] at hlength
    omega
  have hnext : t.next now = (none, { t with queue := rest ++ [c] }) := by
    simp only [next, hqueue, hpending, hopen, if_true, offer, if_pos hroom]
  rw [hnext]
  refine ⟨rfl, rfl, rfl, rfl, fun path hsame => (pendingAt?_congr hsame).trans hpending, fun _ _ => rfl,
    fun path hother => ?_⟩
  have hback := changesAt_append rest c path
  have hfront := changesAt_cons c rest path
  rw [if_neg hother.symm, List.append_nil] at hback
  rw [if_neg hother.symm, List.nil_append, ← hqueue] at hfront
  exact hback.trans hfront.symm

/-- Taking when the window of the change in front is closed, or nothing is under way. -/
theorem next_of_closed {c : FileChange} {rest : List FileChange} (hqueue : t.queue = c :: rest)
    (h : t.openAt? now c.path = none) :
    (t.next now).1 = (t.dueAt? c.path).map (⟨c.path, ·⟩) ∧ t.Touches c.path none rest (t.next now).2 := by
  have hdue : t.dueAt? c.path = some (((t.pendingAt? c.path).map PendingChange.change).getD c.change) := by
    rw [dueAt?_eq, hqueue, List.find?_cons_of_pos (by simp), Option.map_some]
  have hwaiting : ∀ path, path.components ≠ c.path.components → changesAt path rest = t.waitingAt path := by
    intro path hother
    have hfront := changesAt_cons c rest path
    rw [if_neg hother.symm, List.nil_append, ← hqueue] at hfront
    exact hfront.symm
  rw [hdue]
  cases hpending : t.pendingAt? c.path with
  | none =>
      have hnext : t.next now = (some c, { t with queue := rest }) := by simp only [next, hqueue, hpending]
      rw [hnext]
      exact ⟨rfl, rfl, rfl, rfl, fun path hsame => (pendingAt?_congr hsame).trans hpending, fun _ _ => rfl,
        hwaiting⟩
  | some p =>
      have hclosed : t.isInWindow now p = false := by
        rw [openAt?, hpending, Option.filter_eq_none_iff] at h
        simpa using h p rfl
      have hnext : t.next now = (some ⟨c.path, p.change⟩,
          { t with queue := rest, pending := t.pending.erase c.path.components }) := by
        simp [next, hqueue, hpending, hclosed]
      have herased := fun path => t.pendingAt?_erase c.path path
      rw [hnext]
      exact ⟨rfl, rfl, rfl, rfl, fun path hsame => (herased path).trans (if_pos hsame),
        fun path hother => (herased path).trans (if_neg hother), hwaiting⟩

/-! ## Trackers that answer alike -/

/-- The trackers cannot be told apart by calls from a moment on. -/
structure Alike (now : Nat) (t t' : Tracker) : Prop where
  window : t'.window = t.window
  capacity : t'.capacity = t.capacity
  queue : t'.queue = t.queue
  openAt? : ∀ {moment}, now ≤ moment → ∀ path, t'.openAt? moment path = t.openAt? moment path
  dueAt? : ∀ path, t'.dueAt? path = t.dueAt? path

/-- The same is left at the place, and elsewhere nothing changes. -/
theorem Alike.touches {p : Option PendingChange} {queue : List FileChange} (h : Alike now t t')
    (ht : t.Touches place p queue t₁) (ht' : t'.Touches place p queue t₁') : Alike now t₁ t₁' where
  window := by rw [ht'.window, h.window, ht.window]
  capacity := by rw [ht'.capacity, h.capacity, ht.capacity]
  queue := by rw [ht'.queue, ht.queue]
  openAt? := by
    intro moment hmoment path
    by_cases hsame : path.components = place.components
    · have hwindow : t₁'.isInWindow moment = t₁.isInWindow moment := by
        funext q
        rw [isInWindow, isInWindow, ht'.window, h.window, ht.window]
      rw [Tracker.openAt?, Tracker.openAt?, ht'.here path hsame, ht.here path hsame, hwindow]
    · rw [ht'.openAt?_elsewhere hsame, ht.openAt?_elsewhere hsame, h.openAt? hmoment path]
  dueAt? := by
    intro path
    by_cases hsame : path.components = place.components
    · rw [dueAt?_eq, dueAt?_eq, ht'.here path hsame, ht.here path hsame, ht'.queue, ht.queue]
    · rw [ht'.dueAt?_elsewhere hsame, ht.dueAt?_elsewhere hsame, h.dueAt? path]

theorem Alike.record (h : Alike now t t') {moment : Nat} (hmoment : now ≤ moment) (event : FileChange) :
    (t'.record moment event).1 = (t.record moment event).1 ∧
      Alike now (t.record moment event).2 (t'.record moment event).2 := by
  have hopen' := h.openAt? hmoment event.path
  cases hopen : t.openAt? moment event.path with
  | some p =>
      obtain ⟨houtcome, htouches⟩ := record_of_open hopen
      obtain ⟨houtcome', htouches'⟩ := record_of_open (hopen'.trans hopen)
      rw [h.queue] at htouches'
      exact ⟨houtcome'.trans houtcome.symm, h.touches htouches htouches'⟩
  | none =>
      by_cases hroom : t.queue.length < t.capacity
      · have hroom' : t'.queue.length < t'.capacity := by rwa [h.queue, h.capacity]
        obtain ⟨houtcome, htouches⟩ := record_of_room hopen hroom
        obtain ⟨houtcome', htouches'⟩ := record_of_room (hopen'.trans hopen) hroom'
        rw [h.queue] at htouches'
        exact ⟨houtcome'.trans houtcome.symm, h.touches htouches htouches'⟩
      · have hfull' : ¬t'.queue.length < t'.capacity := by rwa [h.queue, h.capacity]
        obtain ⟨⟨houtcome, -⟩, htouches⟩ := record_of_full hopen hroom
        obtain ⟨⟨houtcome', -⟩, htouches'⟩ := record_of_full (hopen'.trans hopen) hfull'
        rw [h.queue] at htouches'
        exact ⟨houtcome'.trans houtcome.symm, h.touches htouches htouches'⟩

theorem Alike.next (h : Alike now t t') (hbounded : t.IsBounded) {moment : Nat} (hmoment : now ≤ moment) :
    (t'.next moment).1 = (t.next moment).1 ∧ Alike now (t.next moment).2 (t'.next moment).2 := by
  have hbounded' : t'.IsBounded := by
    unfold IsBounded
    rw [h.queue, h.capacity]
    exact hbounded
  cases hqueue : t.queue with
  | nil =>
      have hnext : ∀ {s : Tracker}, s.queue = [] → s.next moment = (none, s) := by
        intro s hs
        simp only [Tracker.next, hs]
      rw [hnext hqueue, hnext (h.queue.trans hqueue)]
      exact ⟨rfl, h⟩
  | cons c rest =>
      have hqueue' := h.queue.trans hqueue
      have hopen' := h.openAt? hmoment c.path
      cases hopen : t.openAt? moment c.path with
      | some p =>
          obtain ⟨htaken, htouches⟩ := next_of_open hbounded hqueue hopen
          obtain ⟨htaken', htouches'⟩ := next_of_open hbounded' hqueue' (hopen'.trans hopen)
          exact ⟨htaken'.trans htaken.symm, h.touches htouches htouches'⟩
      | none =>
          obtain ⟨htaken, htouches⟩ := next_of_closed hqueue hopen
          obtain ⟨htaken', htouches'⟩ := next_of_closed hqueue' (hopen'.trans hopen)
          rw [h.dueAt?] at htaken'
          exact ⟨htaken'.trans htaken.symm, h.touches htouches htouches'⟩

/-- **A call** shows the same at every path, and leaves trackers that answer alike. -/
theorem Alike.after (h : Alike now t t') (hbounded : t.IsBounded) {call : TrackerCall}
    (hmoment : now ≤ call.moment) :
    (∀ path, t'.actionAt path call = t.actionAt path call) ∧ Alike now (t.after call) (t'.after call) := by
  cases call with
  | record moment event =>
      have hmoment : now ≤ moment := hmoment
      obtain ⟨houtcome, halike⟩ := h.record hmoment event
      exact ⟨fun path => by rw [actionAt, actionAt, houtcome], halike⟩
  | next moment =>
      have hmoment : now ≤ moment := hmoment
      obtain ⟨htaken, halike⟩ := h.next hbounded hmoment
      exact ⟨fun path => by rw [actionAt, actionAt, htaken], halike⟩

/-- **Calls** show the same at every path. -/
theorem Alike.actionsAt (h : Alike now t t') (hbounded : t.IsBounded) {calls : List TrackerCall}
    (hmoments : ∀ call ∈ calls, now ≤ call.moment) (path : FilePath) :
    t'.actionsAt path calls = t.actionsAt path calls := by
  induction calls generalizing t t' with
  | nil => rfl
  | cons call rest ih =>
      obtain ⟨haction, halike⟩ := h.after hbounded (hmoments call List.mem_cons_self)
      rw [Tracker.actionsAt, Tracker.actionsAt, haction path,
        ih halike (hbounded.after call) fun c hc => hmoments c (List.mem_cons_of_mem _ hc)]

/-! ## Bringing to light what is due -/

/-- A change that is taken goes, or comes back at the end of the queue. -/
theorem exists_touches_next (now : Nat) (hbounded : t.IsBounded) {c : FileChange} {rest : List FileChange}
    (hqueue : t.queue = c :: rest) : ∃ p back, t.Touches c.path p (rest ++ back) (t.next now).2 := by
  cases hopen : t.openAt? now c.path with
  | some p => exact ⟨some p, [c], (next_of_open hbounded hqueue hopen).2⟩
  | none => exact ⟨none, [], (List.append_nil rest).symm ▸ (next_of_closed hqueue hopen).2⟩

/-- Taking as often as it takes to come to the first change of a path delivers what is due there, if
its window is closed. -/
theorem deliveredAt_replicate_next (hbounded : t.IsBounded) {c : FileChange} {before rest : List FileChange}
    (hqueue : t.queue = before ++ c :: rest) (hc : c.path.components = path.components)
    (hbefore : ∀ b ∈ before, b.path.components ≠ path.components) (hclosed : t.openAt? now path = none) :
    t.deliveredAt path (List.replicate (before.length + 1) (.next now)) = (t.dueAt? path).toList := by
  induction before generalizing t rest with
  | nil =>
      obtain ⟨htaken, -⟩ := next_of_closed hqueue ((openAt?_congr hc).trans hclosed)
      show [t.actionAt path (.next now)].filterMap PathAction.delivered? = _
      rw [actionAt, htaken, dueAt?_congr hc]
      cases t.dueAt? path with
      | none => rfl
      | some d =>
          rw [Option.map_some]
          show [if c.path.components = path.components then PathAction.delivered d else .quiet].filterMap _ = _
          rw [if_pos hc]
          rfl
  | cons b before ih =>
      have hother : path.components ≠ b.path.components := (hbefore b List.mem_cons_self).symm
      obtain ⟨hquiet, -⟩ := next_unseen hbounded hqueue hother now
      obtain ⟨p, back, htouches⟩ := exists_touches_next now hbounded hqueue
      have hqueue₁ : (t.next now).2.queue = before ++ c :: (rest ++ back) :=
        htouches.queue.trans (List.append_assoc before (c :: rest) back)
      have hlater := ih (hbounded.after (.next now)) hqueue₁
        (fun b hb => hbefore b (List.mem_cons_of_mem _ hb))
        ((htouches.openAt?_elsewhere hother).trans hclosed)
      have hdue : (t.after (.next now)).dueAt? path = t.dueAt? path := htouches.dueAt?_elsewhere hother
      rw [← hdue, ← hlater]
      show (t.actionAt path (.next now) :: _).filterMap PathAction.delivered? = _
      rw [hquiet]
      rfl

/-- If the same is delivered at a path from now on, the same is due there. -/
theorem dueAt?_eq_of_deliveredAt (hbounded : t.IsBounded) (hbounded' : t'.IsBounded)
    (hqueue : t'.queue = t.queue) (hclosed : t.openAt? now path = none) (hclosed' : t'.openAt? now path = none)
    (hsame : ∀ later : List TrackerCall, (∀ call ∈ later, now ≤ call.moment) →
      t'.deliveredAt path later = t.deliveredAt path later) : t'.dueAt? path = t.dueAt? path := by
  cases hfirst : t.queue.find? fun c => c.path.components = path.components with
  | none => rw [dueAt?_eq, dueAt?_eq, hqueue, hfirst, Option.map_none, Option.map_none]
  | some c =>
      obtain ⟨hplace, before, rest, hsplit, hbefore⟩ := List.find?_eq_some_iff_append.mp hfirst
      have hplace : c.path.components = path.components := by simpa using hplace
      have hbefore : ∀ b ∈ before, b.path.components ≠ path.components := by simpa using hbefore
      have hlater := hsame (List.replicate (before.length + 1) (.next now)) fun call hcall => by
        rw [List.eq_of_mem_replicate hcall]
        exact Nat.le_refl now
      rw [deliveredAt_replicate_next hbounded' (hqueue.trans hsplit) hplace hbefore hclosed',
        deliveredAt_replicate_next hbounded hsplit hplace hbefore hclosed] at hlater
      simpa using congrArg List.head? hlater

/-! ## Dropped events -/

/-- An event is dropped at a closed window and a full queue. -/
theorem dropped_iff {event : FileChange} : (t.record now event).1 = .dropped ↔
    t.openAt? now event.path = none ∧ ¬t.queue.length < t.capacity := by
  cases hopen : t.openAt? now event.path with
  | some p => simp [(record_of_open hopen).1]
  | none =>
      by_cases hroom : t.queue.length < t.capacity
      · simp [(record_of_room hopen hroom).1, hroom]
      · simp [(record_of_full hopen hroom).1, hroom]

/-- Ending what is under way behind a closed window does not show if the same is due as before. -/
theorem Touches.alike (h : t.Touches place none t.queue t') (hclosed : t.openAt? now place = none)
    (hdue : t'.dueAt? place = t.dueAt? place) : Alike now t t' where
  window := h.window
  capacity := h.capacity
  queue := h.queue
  openAt? := by
    intro moment hmoment path
    by_cases hpath : path.components = place.components
    · rw [openAt?_congr hpath, openAt?_congr hpath, openAt?_later hclosed hmoment, Tracker.openAt?,
        h.here place rfl, Option.filter_none]
    · exact h.openAt?_elsewhere hpath
  dueAt? := by
    intro path
    by_cases hpath : path.components = place.components
    · rw [dueAt?_congr hpath, dueAt?_congr hpath, hdue]
    · exact h.dueAt?_elsewhere hpath

/-- **What a dropped event leaves behind.** The queue is as before and one more is counted, but nothing is
under way at the path any more. So no trace is left just if nothing was under way there before; and what is
delivered later, at any path, is as without the event just if the first change that waits at the path was
queued as what was under way. -/
theorem record_dropped {window : Duration} {capacity now : Nat} {before : List TrackerCall}
    {event : FileChange} {t t' : Tracker} (ht : t = (new window capacity).run before)
    (hdropped : t.record now event = (.dropped, t')) :
    (t'.queue = t.queue ∧ t'.window = t.window ∧ t'.capacity = t.capacity ∧ t'.dropped = t.dropped + 1) ∧
      (∀ path, t'.pendingAt? path =
        if path.components = event.path.components then none else t.pendingAt? path) ∧
      ((∀ path, t'.pendingAt? path = t.pendingAt? path) ↔ t.pendingAt? event.path = none) ∧
      ((∀ later : List TrackerCall, (∀ call ∈ later, now ≤ call.moment) →
          ∀ path, t'.deliveredAt path later = t.deliveredAt path later) ↔
        ∀ p, t.pendingAt? event.path = some p → (t.waitingAt event.path).head? = some p.change) := by
  have hbounded : t.IsBounded := ht ▸ (isBounded_new window capacity).run before
  have hcovered : t.IsCovered := ht ▸ (isCovered_new window capacity).run (isBounded_new window capacity) before
  have hbounded' : t'.IsBounded := by
    have hafter := hbounded.after (.record now event)
    rwa [Tracker.after, hdropped] at hafter
  obtain ⟨hclosed, hfull⟩ := dropped_iff.mp (congrArg Prod.fst hdropped)
  obtain ⟨⟨-, hcount⟩, htouches⟩ := record_of_full hclosed hfull
  rw [hdropped] at hcount htouches
  have hnone : t'.pendingAt? event.path = none := htouches.here event.path rfl
  have hpending : ∀ path, t'.pendingAt? path =
      if path.components = event.path.components then none else t.pendingAt? path := by
    intro path
    by_cases hpath : path.components = event.path.components
    · rw [if_pos hpath, htouches.here path hpath]
    · rw [if_neg hpath, htouches.pendingElsewhere path hpath]
  -- The first change in the queue is due now, and before it was what was under way.
  have hdue : t'.dueAt? event.path = t.dueAt? event.path ↔
      ∀ p, t.pendingAt? event.path = some p → (t.waitingAt event.path).head? = some p.change := by
    rw [dueAt?_of_none hnone, waitingAt, htouches.queue, ← waitingAt]
    cases hp : t.pendingAt? event.path with
    | none => simp [dueAt?_of_none hp]
    | some p => simp [dueAt?_of_some hp (hcovered.waitingAt_ne_nil hp)]
  refine ⟨⟨htouches.queue, htouches.window, htouches.capacity, hcount⟩, hpending,
    ⟨fun hsame => ?_, fun hidle path => ?_⟩, ⟨fun hsame => ?_, fun hfirst later hmoments path => ?_⟩⟩
  · rw [← hsame, hnone]
  · rw [hpending]
    by_cases hpath : path.components = event.path.components
    · rw [if_pos hpath, pendingAt?_congr hpath, hidle]
    · rw [if_neg hpath]
  · have hclosed' : t'.openAt? now event.path = none := by rw [openAt?, hnone, Option.filter_none]
    exact hdue.mp (dueAt?_eq_of_deliveredAt hbounded hbounded' htouches.queue hclosed hclosed'
      fun later hmoments => hsame later hmoments event.path)
  · have halike : Alike now t t' := htouches.alike hclosed (hdue.mpr hfirst)
    rw [deliveredAt, deliveredAt, halike.actionsAt hbounded hmoments path]

/-- A deletion is under way behind a closed window, the queue holds the creation that it was merged into and
nothing else, and a further event is dropped. -/
theorem record_dropped_deletion :
    let event : FileChange := ⟨⟨"a.py"⟩, .modify⟩
    let t := (new ⟨10, by decide⟩ 1).run [.record 0 ⟨⟨"a.py"⟩, .create⟩, .record 5 ⟨⟨"a.py"⟩, .delete⟩]
    let t' := (t.record 20 event).2
    t.record 20 event = (.dropped, t') ∧ t'.dropped = t.dropped + 1 ∧
      ((∀ path, t'.pendingAt? path = t.pendingAt? path) ↔ t.pendingAt? event.path = none) ∧
      ((∀ later : List TrackerCall, (∀ call ∈ later, 20 ≤ call.moment) →
          ∀ path, t'.deliveredAt path later = t.deliveredAt path later) ↔
        ∀ p, t.pendingAt? event.path = some p → (t.waitingAt event.path).head? = some p.change) := by
  intro event t t'
  have hdropped : t.record 20 event = (.dropped, t') := Prod.ext (by decide +kernel) rfl
  obtain ⟨⟨-, -, -, hcount⟩, -, hpending, hdelivered⟩ := record_dropped rfl hdropped
  exact ⟨hdropped, hcount, hpending, hdelivered⟩

/-- **A dropped event can take an earlier one with it**: the event is only discarded, but the deletion that
was under way at its path is lost with it, and the creation goes out instead. -/
theorem record_dropped_loses :
    let event : FileChange := ⟨⟨"a.py"⟩, .modify⟩
    let t := (new ⟨10, by decide⟩ 1).run [.record 0 ⟨⟨"a.py"⟩, .create⟩, .record 5 ⟨⟨"a.py"⟩, .delete⟩]
    let t' := (t.record 20 event).2
    (t.record 20 event).1 = .dropped ∧ t.pendingAt? event.path = some ⟨5, .delete⟩ ∧
      t'.pendingAt? event.path = none ∧ (t.next 30).1 = some ⟨⟨"a.py"⟩, .delete⟩ ∧
      (t'.next 30).1 = some ⟨⟨"a.py"⟩, .create⟩ := by
  decide +kernel

end Tracker

end ProgramGraph
