import ProgramGraph.Proofs.Sync.Delivery

set_option autoImplicit false

/-! # No change is unaccounted for

A tracker keeps its changes in two places, the queue and the changes under way, and each call touches
both. Over a call three things hold: the queue stays within its capacity, whatever is under way at a path
waits in the queue too (`Tracker.IsCovered`), and what enters the queue is taken from it or is still there
(`Tracker.count_call`). So they hold over every run (`Tracker.run_accounts`): the events that were queued
are as many as the changes that were taken and those that wait, and only recording drops an event, because
a change that goes back to the end of the queue has just left its front.
-/

namespace ProgramGraph

namespace Tracker

/-! ## What calls answer -/

/-- What became of the event that a call records. -/
def outcome? (t : Tracker) : TrackerCall → Option EventOutcome
  | .record now event => some (t.record now event).1
  | .next _ => none

/-- The change that a call takes. -/
def taken? (t : Tracker) : TrackerCall → Option FileChange
  | .record _ _ => none
  | .next now => (t.next now).1

/-- What became of the events that calls record. -/
def outcomes (t : Tracker) : List TrackerCall → List EventOutcome
  | [] => []
  | call :: rest => (t.outcome? call).toList ++ (t.after call).outcomes rest

/-- The changes that calls take. -/
def taken (t : Tracker) : List TrackerCall → List FileChange
  | [] => []
  | call :: rest => (t.taken? call).toList ++ (t.after call).taken rest

variable {t : Tracker}

/-! ## One call -/

/-- **Going back is not dropping**: taking leaves the counter as it is, and if nothing is taken the
change in front is now the last. -/
theorem next_rotates (h : t.IsBounded) (now : Nat) :
    (t.next now).2.dropped = t.dropped ∧
      ((t.next now).1 = none → (t.next now).2 = { t with queue := t.queue.rotate 1 }) := by
  obtain ⟨hqueue, hnext⟩ | ⟨c, rest, hqueue, ⟨-, hnext⟩ | ⟨p, -, hnext | hnext⟩⟩ := next_cases h now
  · rw [hnext]
    refine ⟨rfl, fun _ => ?_⟩
    rw [hqueue, List.rotate_nil, ← hqueue]
  · rw [hnext]
    exact ⟨rfl, fun hnone => by cases hnone⟩
  · rw [hnext, hqueue, List.rotate_cons_succ, List.rotate_zero]
    exact ⟨rfl, fun _ => rfl⟩
  · rw [hnext]
    exact ⟨rfl, fun hnone => by cases hnone⟩

theorem capacity_after (h : t.IsBounded) (call : TrackerCall) : (t.after call).capacity = t.capacity := by
  cases call with
  | record now event =>
      rw [Tracker.after]
      obtain ⟨p, -, hrecord⟩ | ⟨-, hrecord⟩ | hrecord := t.record_cases now event <;> rw [hrecord] <;> rfl
  | next now =>
      rw [Tracker.after]
      obtain ⟨-, hnext⟩ | ⟨c, rest, -, ⟨-, hnext⟩ | ⟨p, -, hnext | hnext⟩⟩ := next_cases h now <;> rw [hnext]

/-- **What enters the queue** is taken from it or is still there, and the counter counts what is dropped. -/
theorem count_call (h : t.IsBounded) (call : TrackerCall) :
    (t.outcome? call).toList.count .queued + t.queue.length =
        (t.taken? call).toList.length + (t.after call).queue.length ∧
      (t.outcome? call).toList.count .dropped + t.dropped = (t.after call).dropped := by
  cases call with
  | record now event =>
      rw [outcome?, taken?, Tracker.after]
      obtain ⟨p, -, hrecord⟩ | ⟨-, hrecord⟩ | hrecord := t.record_cases now event
      · rw [hrecord]
        exact ⟨rfl, Nat.zero_add _⟩
      · rw [hrecord]
        refine ⟨?_, Nat.zero_add _⟩
        show 1 + t.queue.length = 0 + (t.queue ++ [event]).length
        rw [List.length_append, List.length_singleton, Nat.zero_add, Nat.add_comm]
      · rw [hrecord]
        exact ⟨rfl, Nat.add_comm _ _⟩
  | next now =>
      rw [outcome?, taken?, Tracker.after]
      obtain ⟨-, hnext⟩ | ⟨c, rest, hqueue, ⟨-, hnext⟩ | ⟨p, -, hnext | hnext⟩⟩ := next_cases h now
      · rw [hnext]
        exact ⟨rfl, Nat.zero_add _⟩
      · rw [hnext, hqueue, List.length_cons]
        exact ⟨by simp; omega, Nat.zero_add _⟩
      · rw [hnext, hqueue, List.length_cons]
        exact ⟨by simp, Nat.zero_add _⟩
      · rw [hnext, hqueue, List.length_cons]
        exact ⟨by simp; omega, Nat.zero_add _⟩

/-! ## Whatever is under way waits -/

/-- At every place with a change under way a change waits in the queue. -/
def IsCovered (t : Tracker) : Prop := ∀ place ∈ t.pending, ∃ c ∈ t.queue, c.path.components = place

theorem components_mem_pending {path : FilePath} :
    path.components ∈ t.pending ↔ ∃ p, t.pendingAt? path = some p :=
  Std.TreeMap.mem_iff_isSome_getElem?.trans Option.isSome_iff_exists

theorem mem_pending_note {path : FilePath} {p : PendingChange} {place : List String} :
    place ∈ (t.note path p).pending ↔ place = path.components ∨ place ∈ t.pending := by
  rw [note, Std.TreeMap.mem_insert, Std.LawfulEqCmp.compare_eq_iff_eq, eq_comm]

theorem mem_erase_components {pending : Std.TreeMap (List String) PendingChange} {path : FilePath}
    {place : List String} :
    place ∈ pending.erase path.components ↔ path.components ≠ place ∧ place ∈ pending := by
  rw [Std.TreeMap.mem_erase, ne_eq, Std.LawfulEqCmp.compare_eq_iff_eq]

namespace IsCovered

/-- With a change under way the path has changes in the queue. -/
theorem waitingAt_ne_nil (h : t.IsCovered) {path : FilePath} {p : PendingChange}
    (hpending : t.pendingAt? path = some p) : t.waitingAt path ≠ [] := by
  obtain ⟨c, hc, hsame⟩ := h _ (components_mem_pending.mpr ⟨p, hpending⟩)
  have hwaits : c.change ∈ t.waitingAt path :=
    List.mem_map_of_mem (List.mem_filter.mpr ⟨hc, decide_eq_true hsame⟩)
  exact List.ne_nil_of_mem hwaits

/-- A change is noted only where one is under way already, or together with one in the queue. -/
theorem record (h : t.IsCovered) (now : Nat) (event : FileChange) : (t.record now event).2.IsCovered := by
  obtain ⟨p, hpending, hrecord⟩ | ⟨-, hrecord⟩ | hrecord := t.record_cases now event
  · -- merged: the place of the change was under way before
    rw [hrecord]
    intro place hplace
    obtain rfl | hplace := mem_pending_note.mp hplace
    · exact h _ (components_mem_pending.mpr ⟨p, hpending⟩)
    · exact h place hplace
  · rw [hrecord]
    intro place hplace
    obtain rfl | hplace := mem_pending_note.mp hplace
    · exact ⟨event, List.mem_append_right _ (List.mem_singleton_self event), rfl⟩
    · obtain ⟨c, hc, hsame⟩ := h place hplace
      exact ⟨c, List.mem_append_left _ hc, hsame⟩
  · rw [hrecord]
    intro place hplace
    obtain ⟨hother, hplace⟩ := mem_erase_components.mp hplace
    exact h place ((mem_pending_note.mp hplace).resolve_left hother.symm)

/-- The change in front leaves the queue together with what is under way at its place. -/
theorem next (h : t.IsCovered) (hbounded : t.IsBounded) (now : Nat) : (t.next now).2.IsCovered := by
  obtain ⟨-, hnext⟩ | ⟨front, rest, hqueue, htaken⟩ := next_cases hbounded now
  · rw [hnext]
    exact h
  -- The front covers its own place only.
  have hrest : ∀ place ∈ t.pending, front.path.components = place ∨
      ∃ c ∈ rest, c.path.components = place := by
    intro place hplace
    obtain ⟨c, hc, hsame⟩ := h place hplace
    rw [hqueue] at hc
    obtain rfl | hc := List.mem_cons.mp hc
    · exact .inl hsame
    · exact .inr ⟨c, hc, hsame⟩
  obtain ⟨hpending, hnext⟩ | ⟨p, -, hnext | hnext⟩ := htaken
  · rw [hnext]
    intro place hplace
    refine (hrest place hplace).resolve_left ?_
    rintro rfl
    obtain ⟨p, hp⟩ := components_mem_pending.mp hplace
    cases hpending.symm.trans hp
  · rw [hnext]
    intro place hplace
    obtain rfl | ⟨c, hc, hsame⟩ := hrest place hplace
    · exact ⟨front, List.mem_append_right _ (List.mem_singleton_self front), rfl⟩
    · exact ⟨c, List.mem_append_left _ hc, hsame⟩
  · rw [hnext]
    intro place hplace
    obtain ⟨hother, hplace⟩ := mem_erase_components.mp hplace
    exact (hrest place hplace).resolve_left hother

/-- A call keeps a change in the queue for whatever is under way. -/
theorem after (h : t.IsCovered) (hbounded : t.IsBounded) (call : TrackerCall) :
    (t.after call).IsCovered := by
  cases call with
  | record now event => exact h.record now event
  | next now => exact h.next hbounded now

end IsCovered

/-! ## Calls one after the other -/

theorem IsCovered.run (h : t.IsCovered) (hbounded : t.IsBounded) (calls : List TrackerCall) :
    (t.run calls).IsCovered := by
  induction calls generalizing t with
  | nil => exact h
  | cons call rest ih => exact ih (h.after hbounded call) (hbounded.after call)

theorem isCovered_new (window : Duration) (capacity : Nat) : (new window capacity).IsCovered :=
  fun _ hplace => absurd hplace Std.TreeMap.not_mem_emptyc

theorem capacity_run (h : t.IsBounded) (calls : List TrackerCall) : (t.run calls).capacity = t.capacity := by
  induction calls generalizing t with
  | nil => rfl
  | cons call rest ih => exact (ih (h.after call)).trans (capacity_after h call)

/-- What enters the queue over calls is taken from it or is still there. -/
theorem count_run (h : t.IsBounded) (calls : List TrackerCall) :
    (t.outcomes calls).count .queued + t.queue.length =
        (t.taken calls).length + (t.run calls).queue.length ∧
      (t.outcomes calls).count .dropped + t.dropped = (t.run calls).dropped := by
  induction calls generalizing t with
  | nil => exact ⟨rfl, Nat.zero_add _⟩
  | cons call rest ih =>
      obtain ⟨hqueued, hdropped⟩ := count_call h call
      obtain ⟨hqueuedRest, hdroppedRest⟩ := ih (h.after call)
      have hrun : t.run (call :: rest) = (t.after call).run rest := rfl
      rw [outcomes, taken, hrun, List.count_append, List.count_append, List.length_append]
      constructor <;> omega

/-- **Every change is accounted for**, whatever was called before. The queue is within its capacity, which is
at least 1; whatever is under way waits; the events queued are the changes taken and those that wait; the
counter counts the events dropped; and a change that is too early goes to the end, with no event dropped. -/
theorem run_accounts (window : Duration) (capacity : Nat) (calls : List TrackerCall) :
    let t := (new window capacity).run calls
    t.queue.length ≤ max capacity 1 ∧
      (∀ place ∈ t.pending, ∃ c ∈ t.queue, c.path.components = place) ∧
      ((new window capacity).outcomes calls).count .queued =
        ((new window capacity).taken calls).length + t.queue.length ∧
      ((new window capacity).outcomes calls).count .dropped = t.dropped ∧
      ∀ now, (t.next now).2.dropped = t.dropped ∧
        ((t.next now).1 = none → (t.next now).2 = { t with queue := t.queue.rotate 1 }) := by
  intro t
  have hnew := isBounded_new window capacity
  have hbounded : t.IsBounded := hnew.run calls
  have hcapacity : t.capacity = max capacity 1 := capacity_run hnew calls
  obtain ⟨hqueued, hdropped⟩ := count_run hnew calls
  refine ⟨?_, (isCovered_new window capacity).run hnew calls, hqueued, hdropped, next_rotates hbounded⟩
  rw [← hcapacity]
  exact hbounded

end Tracker

end ProgramGraph
