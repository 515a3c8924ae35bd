import ProgramGraph.Proofs.Store.Answering
import ProgramGraph.Proofs.Store.KeyedRecords

set_option autoImplicit false

/-! # Work that stays within the keys of a store

Two keyed stores are twins (`Keyed.Twin`) if they are the same but for entries that are not under their
keys. Work is confined (`Action.IsConfined`) if on twins it ends alike and leads to twins again, and if
no entry changes that is not under the keys of the store. Whatever is asked of a store is such work
(`Store.Request.isConfined_work`), the two ends of a transaction too, each for itself.

What makes this so is said once for reading (`Keyed.answersAlike_of_agreesFor`) and once for writing: an
operation submits changes of own keys only (`Keyed.owns_of_submission`), and which ones does not depend
on other keys (`Keyed.submission_eq_of_agreesFor`).
-/

namespace ProgramGraph

open ProgramGraph.Text

/-! ## Changes of byte maps -/

namespace ByteMap

variable {layout : KeyLayout} {m m' : ByteMap}

/-- The same changes leave maps that agree in agreement. -/
theorem AgreesFor.writeAll (h : AgreesFor layout m m') (writes : List ByteWrite) :
    AgreesFor layout (m.writeAll writes) (m'.writeAll writes) := by
  induction writes generalizing m m' with
  | nil => exact h
  | cons w rest ih =>
      apply ih
      intro key hkey
      rw [getElem?_write, getElem?_write, h key hkey]

/-- Changes of the keys of a store leave all other keys alone. -/
theorem getElem?_writeAll_of_not_owns {writes : List ByteWrite} (hwrites : ∀ w ∈ writes, layout.Owns w.key)
    {key : Bytes} (hkey : ¬layout.Owns key) (m : ByteMap) : (m.writeAll writes)[key]? = m[key]? := by
  have hnone : lastWrite? writes key = none := by
    rw [lastWrite?_eq_none]
    rintro w hw rfl
    exact hkey (hwrites w hw)
  rw [getElem?_writeAll, hnone]
  rfl

end ByteMap

/-! ## What operations submit -/

namespace Keyed

variable {k : Keyed} {layout : KeyLayout} {expiry : UInt64} {w : ByteWrite}

theorem owns_of_mem_nodeWrites {n : Node} (hw : w ∈ nodeWrites layout expiry n) : layout.Owns w.key := by
  simp only [nodeWrites, List.mem_cons, List.not_mem_nil, or_false] at hw
  rcases hw with rfl | rfl
  all_goals exact layout.owns_key (List.cons_ne_nil _ _)

theorem owns_of_mem_edgeWrites {e : Edge} (hw : w ∈ edgeWrites layout expiry e) : layout.Owns w.key := by
  simp only [edgeWrites, List.mem_cons, List.not_mem_nil, or_false] at hw
  rcases hw with rfl | rfl | rfl
  all_goals exact layout.owns_key (List.cons_ne_nil _ _)

theorem owns_of_mem_slotDeletes {slots : List Slot} (hw : w ∈ slotDeletes layout slots) :
    layout.Owns w.key := by
  obtain ⟨slot, -, rfl⟩ := List.mem_map.mp hw
  exact Slot.start_nil_isPrefix slot

/-- **An operation** submits changes of keys of its store only. -/
theorem owns_of_submission {op : Store.Operation} {writes : List ByteWrite}
    (h : k.submission op = .ok writes) : ∀ w ∈ writes, k.layout.Owns w.key := by
  intro w hw
  obtain rfl | ⟨ids, keys, rfl⟩ | rfl := submission_cases h
  · rcases List.mem_append.mp hw with hw | hw
    · obtain ⟨n, -, hn⟩ := List.mem_flatMap.mp hw
      exact owns_of_mem_nodeWrites hn
    · obtain ⟨e, -, he⟩ := List.mem_flatMap.mp hw
      exact owns_of_mem_edgeWrites he
  · exact owns_of_mem_slotDeletes hw
  · rw [allDeletes_eq_keysUnder] at hw
    obtain ⟨key, hkey, rfl⟩ := List.mem_map.mp hw
    exact (ByteMap.mem_keysUnder.mp hkey).2

/-- **What an operation submits** does not depend on the keys of others. -/
theorem submission_eq_of_agreesFor (k : Keyed) {m m' : ByteMap} (h : m.AgreesFor k.layout m')
    (op : Store.Operation) :
    ({ k with entries := m } : Keyed).submission op = ({ k with entries := m' } : Keyed).submission op := by
  -- What is deleted is looked up first, and what is looked up is the same.
  have halike := answersAlike_of_agreesFor k h
  cases op with
  | saveNode | saveEdge | saveGraph => rfl
  | deleteNode id =>
      show nodeDeletes _ id = nodeDeletes _ id
      unfold nodeDeletes
      simp only [halike.edgesFrom, halike.edgesTo]
      rfl
  | deleteEdge source target kind =>
      show betweenDeletes _ source target kind = betweenDeletes _ source target kind
      unfold betweenDeletes
      simp only [halike.edgesFrom]
      rfl
  | clear =>
      show Except.ok ((m.scan (k.layout.start [])).map _) = .ok ((m'.scan (k.layout.start [])).map _)
      rw [h.scan_eq]

/-! ## Twins -/

/-- The stores are the same but for entries that are not under their keys, and nothing else than
changes of their keys is collected. -/
structure Twin (a b : Keyed) : Prop where
  eq : b = { a with entries := b.entries }
  agrees : a.entries.AgreesFor a.layout b.entries
  owns : ∀ w ∈ a.collected, a.layout.Owns w.key

/-- The second store has the keys of the first, and all other keys have the same entries in both. -/
structure Spares (a b : Keyed) : Prop where
  layout_eq : b.layout = a.layout
  getElem?_eq : ∀ {key : Bytes}, ¬a.layout.Owns key → b.entries[key]? = a.entries[key]?

namespace Spares

variable {a b c : Keyed}

theorem refl (a : Keyed) : a.Spares a := ⟨rfl, fun _ => rfl⟩

theorem trans (hab : a.Spares b) (hbc : b.Spares c) : a.Spares c where
  layout_eq := hbc.layout_eq.trans hab.layout_eq
  getElem?_eq hkey := (hbc.getElem?_eq (hab.layout_eq ▸ hkey)).trans (hab.getElem?_eq hkey)

end Spares

namespace Twin

variable {a b : Keyed}

theorem refl (owns : ∀ w ∈ a.collected, a.layout.Owns w.key) : a.Twin a := ⟨rfl, .refl _ _, owns⟩

theorem layout_eq (h : a.Twin b) : b.layout = a.layout := by
  rw [h.eq]
  rfl

theorem isOpen_eq (h : a.Twin b) : b.isOpen = a.isOpen := by
  rw [h.eq]
  rfl

theorem answersAlike (h : a.Twin b) : AnswersAlike a b := by
  rw [h.eq]
  exact answersAlike_of_agreesFor a h.agrees

theorem submission_eq (h : a.Twin b) (op : Store.Operation) : b.submission op = a.submission op := by
  rw [h.eq]
  exact (submission_eq_of_agreesFor a h.agrees op).symm

/-- Time passes for twins alike. -/
theorem atMoment (h : a.Twin b) (now : UInt64) : Twin { a with now := now } { b with now := now } where
  eq := by
    rw [h.eq]
  agrees := h.agrees
  owns := h.owns

theorem enterScope (h : a.Twin b) : a.enterScope.Twin b.enterScope where
  eq := by
    rw [h.eq]
    rfl
  agrees := h.agrees
  owns := h.owns

theorem leaveScope (h : a.Twin b) : a.leaveScope.Twin b.leaveScope where
  eq := by
    rw [h.eq]
    rfl
  agrees := h.agrees
  owns w hw := by
    unfold Keyed.leaveScope at hw
    split at hw
    · exact absurd hw (Array.not_mem_empty w)
    · exact h.owns w hw

/-- Twins make their collected changes. They are changes of own keys. -/
theorem commit (h : a.Twin b) : a.commit.Twin b.commit ∧ a.Spares a.commit := by
  have hcollected : b.collected = a.collected := by rw [h.eq]
  have howns : ∀ w ∈ a.collected.toList, a.layout.Owns w.key := fun w hw =>
    h.owns w (Array.mem_toList_iff.mp hw)
  have hwritten : Twin { a with entries := a.entries.writeAll a.collected.toList, collected := #[] }
      { b with entries := b.entries.writeAll b.collected.toList, collected := #[] } := by
    constructor
    case eq => rw [h.eq]
    case agrees =>
      rw [hcollected]
      exact h.agrees.writeAll _
    case owns => exact fun w hw => absurd hw (Array.not_mem_empty w)
  exact ⟨hwritten.leaveScope, rfl, fun hkey => ByteMap.getElem?_writeAll_of_not_owns howns hkey _⟩

/-- The same changes of own keys are submitted to twins. -/
theorem submit (h : a.Twin b) {writes : List ByteWrite} (howns : ∀ w ∈ writes, a.layout.Owns w.key) :
    (a.submit writes).Twin (b.submit writes) ∧ a.Spares (a.submit writes) := by
  cases hopen : a.isOpen with
  | true =>
      rw [submit_of_isOpen hopen, submit_of_isOpen (h.isOpen_eq.trans hopen)]
      refine ⟨?_, rfl, fun _ => rfl⟩
      constructor
      case eq => rw [h.eq]
      case agrees => exact h.agrees
      case owns =>
        intro w hw
        -- What waits are changes of own keys, those from before and those that come.
        have hw : w ∈ (a.collected ++ writes).toList := Array.mem_toList_iff.mpr hw
        rw [Array.toList_appendList, List.mem_append, Array.mem_toList_iff] at hw
        rcases hw with hw | hw
        · exact h.owns w hw
        · exact howns w hw
  | false =>
      rw [submit_of_not_isOpen hopen, submit_of_not_isOpen (h.isOpen_eq.trans hopen)]
      refine ⟨?_, rfl, fun hkey => ByteMap.getElem?_writeAll_of_not_owns howns hkey _⟩
      constructor
      case eq => rw [h.eq]
      case agrees => exact h.agrees.writeAll writes
      case owns => exact h.owns

end Twin

end Keyed

/-! ## Confined work -/

namespace Action

variable {α β : Type}

/-- Two ends are alike: they give the same, on twins, and have spared the keys of others. -/
def EndsAlike (a : Keyed) (x y : Except Stop α × Store) : Prop :=
  ∃ ended a' b', x = (ended, .keyed a') ∧ y = (ended, .keyed b') ∧ a'.Twin b' ∧ a.Spares a'

/-- The work ends alike on twins. -/
structure IsConfined (work : Action α) : Prop where
  endsAlike : ∀ {a b : Keyed}, a.Twin b →
    EndsAlike a (runOn (m := Id) work (.keyed a)) (runOn (m := Id) work (.keyed b))

namespace IsConfined

theorem pure (x : α) : IsConfined (Pure.pure x) where
  endsAlike {a b} h := ⟨.ok x, a, b, rfl, rfl, h, .refl a⟩

theorem bind {first : Action α} {next : α → Action β} (hfirst : IsConfined first)
    (hnext : ∀ x, IsConfined (next x)) : IsConfined (first >>= next) := by
  constructor
  intro a b h
  obtain ⟨ended, a₁, b₁, ha, hb, htwin, hspares⟩ := hfirst.endsAlike h
  cases ended with
  | error stop => exact ⟨.error stop, a₁, b₁, bind_of_error ha, bind_of_error hb, htwin, hspares⟩
  | ok x =>
      obtain ⟨ended, a₂, b₂, ha₂, hb₂, htwin₂, hspares₂⟩ := (hnext x).endsAlike htwin
      exact ⟨ended, a₂, b₂, (bind_of_ends ha).trans ha₂, (bind_of_ends hb).trans hb₂, htwin₂,
        hspares.trans hspares₂⟩

theorem map {work : Action α} (hwork : IsConfined work) (f : α → β) : IsConfined (f <$> work) := by
  rw [← bind_pure_comp]
  exact hwork.bind fun x => .pure (f x)

theorem forM {items : List α} {work : α → Action Unit} (hwork : ∀ x, IsConfined (work x)) :
    IsConfined (items.forM work) := by
  induction items with
  | nil => exact .pure ()
  | cons x rest ih => exact (hwork x).bind fun _ => ih

/-- A question that twins answer alike. -/
theorem read {f : Store → Outcome α} (hf : ∀ {a b : Keyed}, a.Twin b → f (.keyed a) = f (.keyed b)) :
    IsConfined (read f) := by
  constructor
  intro a b h
  show EndsAlike a (Action.read (m := Id) f (.keyed a)) (Action.read (m := Id) f (.keyed b))
  unfold Action.read
  rw [hf h]
  exact ⟨_, a, b, rfl, rfl, h, .refl a⟩

/-- A question that keyed stores always answer. -/
theorem ask {f : Store → Outcome α} {answer : Keyed → α} (hf : ∀ k, f (.keyed k) = .ok (answer k))
    (hanswer : ∀ {a b : Keyed}, a.Twin b → answer a = answer b) : IsConfined (Action.read f) :=
  read fun h => by rw [hf, hf, hanswer h]

/-- **An operation** is confined. -/
theorem perform (op : Store.Operation) : IsConfined (perform op) := by
  constructor
  intro a b h
  show EndsAlike a (write (m := Id) (fun s => s.perform op) (.keyed a))
    (write (m := Id) (fun s => s.perform op) (.keyed b))
  unfold write
  beta_reduce
  rw [Keyed.perform_eq, Keyed.perform_eq, h.submission_eq]
  cases hwrites : a.submission op with
  | error failure => exact ⟨_, a, b, rfl, rfl, h, .refl a⟩
  | ok writes =>
      -- The same changes are submitted to both, and they are changes of own keys.
      obtain ⟨htwin, hspares⟩ := h.submit (Keyed.owns_of_submission hwrites)
      exact ⟨.ok (), _, _, rfl, rfl, htwin, hspares⟩

end IsConfined

namespace EndsAlike

variable {a : Keyed} {x y : Except Stop α × Store}

/-- The end of an inner transaction. -/
theorem closeInner (h : EndsAlike a x y) : EndsAlike a (closeInner x) (closeInner y) := by
  obtain ⟨ended, a', b', rfl, rfl, htwin, hspares⟩ := h
  exact ⟨ended, _, _, rfl, rfl, htwin.leaveScope, hspares.trans ⟨rfl, fun _ => rfl⟩⟩

/-- The end of an outermost transaction. -/
theorem close (h : EndsAlike a x y) : EndsAlike a (close x) (close y) := by
  obtain ⟨ended, a', b', rfl, rfl, htwin, hspares⟩ := h
  have hundone : a.Spares a'.leaveScope := hspares.trans ⟨rfl, fun _ => rfl⟩
  cases ended with
  | ok result =>
      obtain ⟨hmade, hown⟩ := htwin.commit
      exact ⟨.ok result, _, _, rfl, rfl, hmade, hspares.trans hown⟩
  | error stop =>
      cases stop with
      | failed failure => exact ⟨_, _, _, rfl, rfl, htwin.leaveScope, hundone⟩
      | aborted => exact ⟨_, _, _, rfl, rfl, htwin.leaveScope, hundone⟩

end EndsAlike

/-- **A transaction** over confined work is confined. -/
theorem IsConfined.transaction {body : Action α} (hbody : IsConfined body) :
    IsConfined (transaction body) := by
  constructor
  intro a b h
  have hopen : (Store.keyed b).isOpen = (Store.keyed a).isOpen := h.isOpen_eq
  obtain ⟨ended, a', b', ha, hb, htwin, hspares⟩ := hbody.endsAlike h.enterScope
  have hends : EndsAlike a (runOn (m := Id) body (Store.keyed a).enterScope)
      (runOn (m := Id) body (Store.keyed b).enterScope) :=
    ⟨ended, a', b', ha, hb, htwin, hspares.layout_eq, hspares.getElem?_eq⟩
  show EndsAlike a ((if (Store.keyed a).isOpen then Action.closeInner else Action.close) _)
    ((if (Store.keyed b).isOpen then Action.closeInner else Action.close) _)
  rw [hopen]
  split
  · exact hends.closeInner
  · exact hends.close

theorem IsConfined.performInChunks (ops : List Store.Operation) (batchSize : UInt64) :
    IsConfined (performInChunks ops batchSize) := by
  rw [performInChunks_eq]
  exact (IsConfined.forM fun _ => (IsConfined.forM IsConfined.perform).transaction).bind fun _ => .pure _

end Action

end ProgramGraph
