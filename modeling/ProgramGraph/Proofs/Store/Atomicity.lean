import ProgramGraph.Proofs.Store.Chunk

set_option autoImplicit false

/-! # Transactions are all or nothing

A script is work on a store as a tree: operations, transactions inside one another, failures
and aborts, ends that the work around them swallows, and choices that depend on what the store
shows. Running a script leaves a trail: the operations that the store accepted, in their order,
each with the store behind it.

`transaction_atomic` says what becomes of a script that is run as an outermost transaction. The
committed part of the store stays as it was until the end (`Store.committed`). If the script
does not end well, the store is what it was. If it does, the writes of the whole trail are made
in their order (`Settles`), those of inner transactions with a swallowed failure too. In either
case no transaction is open afterwards.
-/

namespace ProgramGraph

/-! ## Scripts -/

/-- Work on a store, as a tree. -/
inductive Script where
  /-- Ends well. -/
  | done
  /-- Ends with a failure, or aborts. -/
  | stop (why : Stop)
  /-- Performs an operation, whose failure ends the work. -/
  | perform (op : Store.Operation)
  /-- One part after the other. -/
  | seq (first next : Script)
  /-- A transaction. -/
  | scope (body : Script)
  /-- Goes on behind a part that did not end well, if the end is one of the `caught`. -/
  | swallow (caught : Stop → Bool) (body : Script)
  /-- Goes on as it depends on what the store shows. -/
  | look (next : Store → Script)

/-- The accepted operations in their order, each with the store behind it. -/
abbrev Trail := List (Store.Operation × Store)

namespace Script

/-- Performs an operation and notes it in the trail if the store accepts it. -/
def note (op : Store.Operation) : ActionT (StateM Trail) Unit := fun s =>
  match Action.runOn (m := Id) (Action.perform op) s with
  | (.ok (), s') => fun trail => ((.ok (), s'), trail ++ [(op, s')])
  | stopped => pure stopped

/-- What becomes of an end that may be swallowed. -/
def pardon (caught : Stop → Bool) : Except Stop Unit × Store → Except Stop Unit × Store
  | (.error why, s) => (if caught why then .ok () else .error why, s)
  | ended => ended

/-- Runs the script. -/
def run : Script → ActionT (StateM Trail) Unit
  | .done => pure ()
  | .stop why => fun s => pure (.error why, s)
  | .perform op => note op
  | .seq first next => do
      first.run
      next.run
  | .scope body => Action.transaction body.run
  | .swallow caught body => fun s => pardon caught <$> body.run s
  | .look next => fun s => (next s).run s

end Script

/-! ## What is committed -/

namespace Store

/-- No transaction is open, and nothing is collected. -/
def IsIdle : Store → Prop
  | .table t => t.saved = none
  | .keyed k => k.depth = 0 ∧ k.collected = #[]

/-- What is left of the store if all work on it ceases. -/
def committed : Store → Store
  | .table t => .table { t with rows := t.saved.getD t.rows, saved := none }
  | .keyed k => .keyed { k with depth := 0, collected := #[] }

theorem IsIdle.isOpen_eq {s : Store} (idle : s.IsIdle) : s.isOpen = false := by
  cases s with
  | table t =>
      have hsaved : t.saved = none := idle
      simp [isOpen, Table.isOpen, hsaved]
  | keyed k => simp [isOpen, Keyed.isOpen, idle.1]

theorem IsIdle.committed_eq {s : Store} (idle : s.IsIdle) : s.committed = s := by
  cases s with
  | table t =>
      obtain ⟨settings, rows, saved, state⟩ := t
      obtain rfl : saved = none := idle
      rfl
  | keyed k =>
      obtain ⟨settings, entries, depth, collected, now⟩ := k
      obtain ⟨rfl, rfl⟩ : depth = 0 ∧ collected = #[] := idle
      rfl

end Store

/-- The changes that an operation submits to a keyed store. -/
def Keyed.submission (k : Keyed) : Store.Operation → Outcome (List ByteWrite)
  | .saveNode n => .ok (nodeWrites k.layout (k.expiry .standard) n)
  | .saveEdge e => .ok (edgeWrites k.layout (k.expiry .standard) e)
  | .saveGraph g options => .ok (graphWrites k.layout (k.expiry options.life) g)
  | .deleteNode id => k.nodeDeletes id
  | .deleteEdge source target kind => k.betweenDeletes source target kind
  | .clear => .ok k.allDeletes

/-- The writes of some operations, made in their order, lead from one store to the other. A
table store makes them one operation after the other. A keyed store works them all out on what
it holds at the beginning. -/
def Settles : Store → List Store.Operation → Store → Prop
  | .table t, ops, after => ops.foldlM Store.perform (.table t) = .ok after
  | .keyed k, ops, after =>
      ∃ writes, ops.mapM k.submission = .ok writes ∧
        after = .keyed { k with entries := k.entries.writeAll writes.flatten }

/-- An operation on a keyed store submits its changes. -/
theorem Keyed.perform_eq (k : Keyed) (op : Store.Operation) :
    (Store.keyed k).perform op = (k.submission op).map fun writes => .keyed (k.submit writes) := by
  cases op with
  | saveNode n => rfl
  | saveEdge e => rfl
  | saveGraph g options => rfl
  | deleteNode id =>
      show ((k.nodeDeletes id).map k.submit).map Store.keyed = _
      cases h : k.nodeDeletes id <;> simp [Keyed.submission, h, Except.map]
  | deleteEdge source target kind =>
      show ((k.betweenDeletes source target kind).map k.submit).map Store.keyed = _
      cases h : k.betweenDeletes source target kind <;> simp [Keyed.submission, h, Except.map]
  | clear => rfl

/-- What waits plays no part in what an operation submits. -/
theorem Keyed.submission_collected (k : Keyed) (collected : Array ByteWrite) :
    ({ k with collected := collected } : Keyed).submission = k.submission := by
  funext op
  cases op <;> rfl

/-- An operation that a keyed store accepts has submitted its changes. -/
theorem Keyed.exists_submit_of_perform {k : Keyed} {s' : Store} {op : Store.Operation}
    (h : (Store.keyed k).perform op = .ok s') :
    ∃ writes, k.submission op = .ok writes ∧ s' = .keyed (k.submit writes) := by
  rw [Keyed.perform_eq] at h
  cases hsub : k.submission op with
  | error failure => simp [hsub, Except.map] at h
  | ok writes =>
      rw [hsub] at h
      exact ⟨writes, rfl, (Except.ok.inj h).symm⟩

/-! ## Operations inside a transaction

Inside a transaction a table store works on its rows as ever, and only the rows to go back to
are another matter (`withSaved`). A keyed store only collects, so every operation finds the
entries of the beginning. -/

/-- Steps that a map of the state commutes with may be taken in the image. -/
theorem foldlM_comm {α β : Type} {step : β → α → Outcome β} {f : β → β}
    (h : ∀ b a, step (f b) a = (step b a).map f) (items : List α) (b : β) :
    items.foldlM step (f b) = (items.foldlM step b).map f := by
  induction items generalizing b with
  | nil => rfl
  | cons a rest ih =>
      rw [List.foldlM_cons, List.foldlM_cons, h]
      cases step b a with
      | error failure => rfl
      | ok b' => exact ih b'

/-- The table store with other rows to go back to. -/
def Table.withSaved (saved : Option Rows) (t : Table) : Table := { t with saved := saved }

/-- The store with other rows to go back to, if it is a table store. -/
def Store.withSaved (saved : Option Rows) : Store → Store
  | .table t => .table (t.withSaved saved)
  | .keyed k => .keyed k

namespace Table

variable (saved : Option Rows) (t : Table)

theorem saveNode_withSaved (n : Node) :
    (t.withSaved saved).saveNode n = (t.saveNode n).map (withSaved saved) := by
  show (Statement.insertNodes.write t.state true >>= _) = Except.map _ (_ >>= _)
  cases Statement.insertNodes.write t.state true <;> rfl

theorem saveEdge_withSaved (e : Edge) :
    (t.withSaved saved).saveEdge e = (t.saveEdge e).map (withSaved saved) := by
  show (Statement.insertEdges.write t.state true >>= _) = Except.map _ (_ >>= _)
  cases Statement.insertEdges.write t.state true <;> rfl

theorem saveGraph_withSaved (g : Graph) (batchSize : Option UInt64) :
    (t.withSaved saved).saveGraph g batchSize
      = (t.saveGraph g batchSize).map (withSaved saved) := by
  rw [saveGraph_eq_foldlM, saveGraph_eq_foldlM, foldlM_comm (saveNode_withSaved saved)]
  cases g.nodeList.foldlM saveNode t with
  | error failure => rfl
  | ok t' => exact foldlM_comm (saveEdge_withSaved saved) _ t'

theorem deleteNode_withSaved (id : String) :
    (t.withSaved saved).deleteNode id = (t.deleteNode id).map (withSaved saved) := by
  simp only [deleteNode, withSaved]
  cases Statement.deleteTouching.write t.state _ with
  | error failure => rfl
  | ok _ => cases Statement.deleteNode.write t.state _ <;> rfl

theorem deleteEdge_withSaved (source target : String) (kind : Option EdgeKind) :
    (t.withSaved saved).deleteEdge source target kind
      = (t.deleteEdge source target kind).map (withSaved saved) := by
  simp only [deleteEdge, withSaved]
  cases (Statement.deleteBetween kind).write t.state _ <;> rfl

theorem clear_withSaved : (t.withSaved saved).clear = t.clear.map (withSaved saved) := by
  simp only [clear, withSaved]
  cases Statement.deleteEdges.write t.state true <;> rfl

/-- The rows to go back to play no part in an operation. -/
theorem perform_withSaved (op : Store.Operation) :
    (Store.table (t.withSaved saved)).perform op
      = ((Store.table t).perform op).map (Store.withSaved saved) := by
  cases op with
  | saveNode n =>
      show ((t.withSaved saved).saveNode n).map Store.table = ((t.saveNode n).map Store.table).map _
      rw [saveNode_withSaved]
      cases t.saveNode n <;> rfl
  | saveEdge e =>
      show ((t.withSaved saved).saveEdge e).map Store.table = ((t.saveEdge e).map Store.table).map _
      rw [saveEdge_withSaved]
      cases t.saveEdge e <;> rfl
  | saveGraph g options =>
      show ((t.withSaved saved).saveGraph g _).map Store.table
        = ((t.saveGraph g _).map Store.table).map _
      rw [saveGraph_withSaved]
      cases t.saveGraph g options.batchSize <;> rfl
  | deleteNode id =>
      show ((t.withSaved saved).deleteNode id).map Store.table
        = ((t.deleteNode id).map Store.table).map _
      rw [deleteNode_withSaved]
      cases t.deleteNode id <;> rfl
  | deleteEdge source target kind =>
      show ((t.withSaved saved).deleteEdge source target kind).map Store.table
        = ((t.deleteEdge source target kind).map Store.table).map _
      rw [deleteEdge_withSaved]
      cases t.deleteEdge source target kind <;> rfl
  | clear =>
      show (t.withSaved saved).clear.map Store.table = (t.clear.map Store.table).map _
      rw [clear_withSaved]
      cases t.clear <;> rfl

end Table

/-- The rows to go back to play no part in an operation of a store. -/
theorem Store.perform_withSaved (saved : Option Rows) (s : Store) (op : Store.Operation) :
    (s.withSaved saved).perform op = (s.perform op).map (Store.withSaved saved) := by
  cases s with
  | table t => exact Table.perform_withSaved saved t op
  | keyed k =>
      show (Store.keyed k).perform op = _
      rw [Keyed.perform_eq]
      cases k.submission op <;> rfl

/-! ## What an operation leaves alone -/

namespace Store

/-- The second store is the first with more written: other rows, or more changes collected. -/
def Grown : Store → Store → Prop
  | .table t, s' => ∃ rows, s' = .table { t with rows := rows }
  | .keyed k, s' => ∃ writes : List ByteWrite, s' = .keyed { k with collected := k.collected ++ writes }

theorem Grown.refl (s : Store) : s.Grown s := by
  cases s with
  | table t => exact ⟨t.rows, rfl⟩
  | keyed k => exact ⟨[], by simp⟩

theorem Grown.trans {a b c : Store} (hab : a.Grown b) (hbc : b.Grown c) : a.Grown c := by
  cases a with
  | table t =>
      obtain ⟨rows, rfl⟩ := hab
      obtain ⟨rows', rfl⟩ := hbc
      exact ⟨rows', rfl⟩
  | keyed k =>
      obtain ⟨writes, rfl⟩ := hab
      obtain ⟨writes', rfl⟩ := hbc
      exact ⟨writes ++ writes', by simp [← Array.toList_inj]⟩

theorem Grown.isOpen_eq {s s' : Store} (h : s.Grown s') : s'.isOpen = s.isOpen := by
  cases s with
  | table t =>
      obtain ⟨rows, rfl⟩ := h
      rfl
  | keyed k =>
      obtain ⟨writes, rfl⟩ := h
      rfl

/-- What grows inside a transaction is not committed. -/
theorem Grown.committed_eq {s s' : Store} (h : s.Grown s') (open_ : s.isOpen = true) :
    s'.committed = s.committed := by
  cases s with
  | table t =>
      obtain ⟨rows, rfl⟩ := h
      obtain ⟨saved, hsaved⟩ := Option.isSome_iff_exists.mp open_
      simp [committed, hsaved]
  | keyed k =>
      obtain ⟨writes, rfl⟩ := h
      rfl

end Store

/-- A step that keeps a relation to the state before it keeps it over many steps. -/
theorem foldlM_rel {α β : Type} {step : β → α → Outcome β} {R : β → β → Prop}
    (refl : ∀ b, R b b) (trans : ∀ {a b c}, R a b → R b c → R a c)
    (h : ∀ {b a b'}, step b a = .ok b' → R b b') {items : List α} {b b' : β}
    (hrun : items.foldlM step b = .ok b') : R b b' := by
  induction items generalizing b with
  | nil => exact (Except.ok.inj hrun) ▸ refl b
  | cons a rest ih =>
      rw [List.foldlM_cons] at hrun
      cases hstep : step b a with
      | error failure => simp [hstep, bind, Except.bind] at hrun
      | ok b₁ =>
          rw [hstep] at hrun
          exact trans (h hstep) (ih hrun)

namespace Table

/-- The second store is the first with other rows. -/
def Rewritten (t t' : Table) : Prop := ∃ rows, t' = { t with rows := rows }

theorem Rewritten.refl (t : Table) : t.Rewritten t := ⟨t.rows, rfl⟩

theorem Rewritten.trans {a b c : Table} (hab : a.Rewritten b) (hbc : b.Rewritten c) :
    a.Rewritten c := by
  obtain ⟨rows, rfl⟩ := hab
  obtain ⟨rows', rfl⟩ := hbc
  exact ⟨rows', rfl⟩

/-- What a statement allows is a change of rows. -/
theorem rewritten_of_allowed {t t' : Table} {allowed : Outcome Unit} {f : Rows → Rows}
    (h : (allowed >>= fun _ => pure (t.change f)) = Except.ok t') : t.Rewritten t' := by
  cases allowed with
  | error failure => simp [bind, Except.bind] at h
  | ok _ => exact (Except.ok.inj h) ▸ ⟨f t.rows, rfl⟩

theorem rewritten_saveGraph {t t' : Table} {g : Graph} {batchSize : Option UInt64}
    (h : t.saveGraph g batchSize = .ok t') : t.Rewritten t' := by
  rw [saveGraph_eq_foldlM] at h
  cases hnodes : g.nodeList.foldlM saveNode t with
  | error failure => simp [hnodes, bind, Except.bind] at h
  | ok t₁ =>
      rw [hnodes] at h
      exact (foldlM_rel Rewritten.refl Rewritten.trans rewritten_of_allowed hnodes).trans
        (foldlM_rel Rewritten.refl Rewritten.trans rewritten_of_allowed h)

theorem rewritten_deleteNode {t t' : Table} {id : String} (h : t.deleteNode id = .ok t') :
    t.Rewritten t' := by
  simp only [deleteNode] at h
  cases hedges : Statement.deleteTouching.write t.state
      (t.rows.hasEdge fun key => key.source = id || key.target = id) with
  | error failure => simp [hedges, bind, Except.bind] at h
  | ok _ =>
      rw [hedges] at h
      exact rewritten_of_allowed h

/-- An accepted operation only changes rows. -/
theorem rewritten_of_perform {t : Table} {s' : Store} {op : Store.Operation}
    (h : (Store.table t).perform op = .ok s') : ∃ rows, s' = .table { t with rows := rows } := by
  have lift : ∀ {result : Outcome Table},
      (∀ {t'}, result = .ok t' → t.Rewritten t') → result.map Store.table = .ok s' →
      ∃ rows, s' = .table { t with rows := rows } := by
    intro result hresult hmap
    cases result with
    | error failure => simp [Except.map] at hmap
    | ok t' =>
        obtain ⟨rows, rfl⟩ := hresult rfl
        exact ⟨rows, (Except.ok.inj hmap).symm⟩
  cases op with
  | saveNode n => exact lift rewritten_of_allowed h
  | saveEdge e => exact lift rewritten_of_allowed h
  | saveGraph g options => exact lift rewritten_saveGraph h
  | deleteNode id => exact lift rewritten_deleteNode h
  | deleteEdge source target kind => exact lift rewritten_of_allowed h
  | clear => exact lift rewritten_of_allowed h

end Table

/-- An accepted operation of a keyed store collects what it submits, if a transaction is
open. -/
theorem Keyed.collected_of_perform {k : Keyed} {s' : Store} {op : Store.Operation}
    (open_ : k.isOpen = true) (h : (Store.keyed k).perform op = .ok s') :
    ∃ writes : List ByteWrite, k.submission op = .ok writes ∧
      s' = .keyed { k with collected := k.collected ++ writes } := by
  obtain ⟨writes, hwrites, rfl⟩ := Keyed.exists_submit_of_perform h
  exact ⟨writes, hwrites, congrArg Store.keyed (Keyed.submit_of_isOpen open_ writes)⟩

/-- An accepted operation grows the store it works on, if a transaction is open. -/
theorem Store.grown_of_perform {s s' : Store} {op : Store.Operation} (open_ : s.isOpen = true)
    (h : s.perform op = .ok s') : s.Grown s' := by
  cases s with
  | table t => exact Table.rewritten_of_perform h
  | keyed k =>
      obtain ⟨writes, -, hs'⟩ := Keyed.collected_of_perform open_ h
      exact ⟨writes, hs'⟩

/-! ## Transactions inside a transaction -/

namespace Store

theorem isOpen_enterScope (s : Store) : s.enterScope.isOpen = true := by
  cases s with
  | table t => cases h : t.saved <;> simp [enterScope, Table.enterScope, isOpen, Table.isOpen, h]
  | keyed k => simp [enterScope, Keyed.enterScope, isOpen, Keyed.isOpen]

theorem committed_enterScope (s : Store) : s.enterScope.committed = s.committed := by
  cases s with
  | table t => cases h : t.saved <;> simp [enterScope, Table.enterScope, committed, h]
  | keyed k => rfl

/-- Entering and leaving an inner transaction changes nothing. -/
theorem leaveScope_enterScope {s : Store} (open_ : s.isOpen = true) :
    s.enterScope.leaveScope = s := by
  cases s with
  | table t => exact congrArg Store.table (Table.enterScope_of_isOpen open_)
  | keyed k =>
      have hdepth : k.depth ≠ 0 := by simpa [isOpen, Keyed.isOpen, Nat.pos_iff_ne_zero] using open_
      simp [enterScope, Keyed.enterScope, leaveScope, Keyed.leaveScope, hdepth]

/-- An operation in an inner transaction is one in the outer transaction. -/
theorem perform_enterScope {s : Store} (open_ : s.isOpen = true) (op : Operation) :
    s.enterScope.perform op = (s.perform op).map enterScope := by
  cases s with
  | table t =>
      rw [show (table t).enterScope = table t from congrArg _ (Table.enterScope_of_isOpen open_)]
      cases h : (table t).perform op with
      | error failure => rfl
      | ok s' =>
          -- The rows to go back to are kept already, and the operation leaves them alone.
          obtain ⟨rows, rfl⟩ := Table.rewritten_of_perform h
          have hopen : ({ t with rows := rows } : Table).isOpen = true := open_
          exact congrArg (Except.ok ∘ table) (Table.enterScope_of_isOpen hopen).symm
  | keyed k =>
      show (keyed k.enterScope).perform op = _
      rw [Keyed.perform_eq, Keyed.perform_eq]
      show (k.submission op).map _ = _
      cases k.submission op with
      | error failure => rfl
      | ok writes =>
          show Except.ok (keyed _) = Except.ok (keyed (Keyed.enterScope _))
          rw [Keyed.submit_of_isOpen open_, Keyed.submit_of_isOpen (isOpen_enterScope (keyed k))]
          rfl

/-- The operations of an inner transaction are operations in the outer transaction. -/
theorem performAll_enterScope {s : Store} (open_ : s.isOpen = true) (ops : List Operation) :
    ops.foldlM perform s.enterScope = (ops.foldlM perform s).map enterScope := by
  induction ops generalizing s with
  | nil => rfl
  | cons op rest ih =>
      rw [List.foldlM_cons, List.foldlM_cons, perform_enterScope open_]
      cases h : s.perform op with
      | error failure => rfl
      | ok s' => exact ih (by rw [(grown_of_perform open_ h).isOpen_eq]; exact open_)

/-- Accepted operations grow the store they work on, if a transaction is open. -/
theorem grown_of_performAll {s s' : Store} {ops : List Operation} (open_ : s.isOpen = true)
    (h : ops.foldlM perform s = .ok s') : s.Grown s' := by
  induction ops generalizing s with
  | nil => exact (Except.ok.inj h) ▸ Grown.refl s
  | cons op rest ih =>
      rw [List.foldlM_cons] at h
      cases hop : s.perform op with
      | error failure => simp [hop, bind, Except.bind] at h
      | ok s₁ =>
          rw [hop] at h
          have hgrown := grown_of_perform open_ hop
          exact hgrown.trans (ih (hgrown.isOpen_eq.trans open_) h)

end Store

/-! ## Runs -/

namespace Script

theorem run_perform_of_error {op : Store.Operation} {s : Store} {failure : Failure}
    (h : s.perform op = .error failure) (trail : Trail) :
    (perform op).run s trail = ((.error (.failed failure), s), trail) := by
  simp [run, note, Action.runOn, Action.perform, Action.write, h]
  rfl

theorem run_perform_of_ok {op : Store.Operation} {s s' : Store} (h : s.perform op = .ok s') (trail : Trail) :
    (perform op).run s trail = ((.ok (), s'), trail ++ [(op, s')]) := by
  simp [run, note, Action.runOn, Action.perform, Action.write, h]
  rfl

theorem run_seq (first next : Script) (s : Store) (trail : Trail) :
    (seq first next).run s trail =
      match first.run s trail with
      | ((.ok (), s'), trail') => next.run s' trail'
      | ((.error why, s'), trail') => ((.error why, s'), trail') := by
  show (first.run >>= fun _ => next.run) s trail = _
  simp only [bind, ExceptT.bind, ExceptT.mk, StateT.bind, ExceptT.bindCont]
  rcases first.run s trail with ⟨⟨_ | _, s'⟩, trail'⟩ <;> rfl

theorem run_swallow (caught : Stop → Bool) (body : Script) (s : Store) (trail : Trail) :
    (swallow caught body).run s trail
      = (pardon caught (body.run s trail).1, (body.run s trail).2) := rfl

/-- The store does not depend on whether an end is swallowed. -/
theorem pardon_snd (caught : Stop → Bool) (ended : Except Stop Unit × Store) :
    (pardon caught ended).2 = ended.2 := by
  rcases ended with ⟨_ | _, s⟩ <;> rfl

theorem run_scope (body : Script) (s : Store) (trail : Trail) :
    (scope body).run s trail =
      ((if s.isOpen then Action.closeInner else Action.close) (body.run s.enterScope trail).1,
        (body.run s.enterScope trail).2) := rfl

/-- **A script inside a transaction** behaves as the accepted operations of its trail, performed
one after the other, and commits nothing. -/
theorem run_inside (script : Script) {s : Store} (open_ : s.isOpen = true) (trail : Trail) :
    ∃ ended s' more, script.run s trail = ((ended, s'), trail ++ more) ∧
      (more.map Prod.fst).foldlM Store.perform s = .ok s' ∧
      ∀ moment ∈ more, moment.2.committed = s.committed := by
  induction script generalizing s trail with
  | done => exact ⟨.ok (), s, [], by simp; rfl, rfl, by simp⟩
  | stop why => exact ⟨.error why, s, [], by simp; rfl, rfl, by simp⟩
  | perform op =>
      cases h : s.perform op with
      | error failure =>
          exact ⟨.error (.failed failure), s, [], by rw [run_perform_of_error h, List.append_nil], rfl, by simp⟩
      | ok s' =>
          refine ⟨.ok (), s', [(op, s')], run_perform_of_ok h trail, by simp [h], ?_⟩
          simpa using (Store.grown_of_perform open_ h).committed_eq open_
  | seq first next ihFirst ihNext =>
      obtain ⟨ended, s₁, more₁, hrun₁, hops₁, hcom₁⟩ := ihFirst open_ trail
      have hgrown := Store.grown_of_performAll open_ hops₁
      cases ended with
      | error why =>
          exact ⟨.error why, s₁, more₁, by rw [run_seq, hrun₁], hops₁, hcom₁⟩
      | ok _ =>
          obtain ⟨ended, s₂, more₂, hrun₂, hops₂, hcom₂⟩ :=
            ihNext (hgrown.isOpen_eq.trans open_) (trail ++ more₁)
          refine ⟨ended, s₂, more₁ ++ more₂, ?_, ?_, ?_⟩
          · rw [run_seq, hrun₁, ← List.append_assoc]
            exact hrun₂
          · rw [List.map_append, List.foldlM_append, hops₁]
            exact hops₂
          · intro moment hmoment
            rcases List.mem_append.mp hmoment with h | h
            · exact hcom₁ moment h
            · exact (hcom₂ moment h).trans (hgrown.committed_eq open_)
  | scope body ih =>
      obtain ⟨ended, s₁, more, hrun, hops, hcom⟩ := ih s.isOpen_enterScope trail
      -- The operations do the same without the inner transaction around them, as one is open already.
      rw [Store.performAll_enterScope open_] at hops
      obtain ⟨s₂, hops₂, rfl⟩ : ∃ s₂, (more.map Prod.fst).foldlM Store.perform s = .ok s₂ ∧
          s₂.enterScope = s₁ := by
        cases h : (more.map Prod.fst).foldlM Store.perform s with
        | error failure => simp [h, Except.map] at hops
        | ok s₂ =>
            rw [h] at hops
            exact ⟨s₂, rfl, Except.ok.inj hops⟩
      have open₂ := (Store.grown_of_performAll open_ hops₂).isOpen_eq.trans open_
      refine ⟨ended, s₂, more, ?_, hops₂, ?_⟩
      · rw [run_scope, hrun, if_pos open_]
        show ((ended, s₂.enterScope.leaveScope), trail ++ more) = _
        rw [Store.leaveScope_enterScope open₂]
      · intro moment hmoment
        exact (hcom moment hmoment).trans s.committed_enterScope
  | swallow caught body ih =>
      obtain ⟨ended, s₁, more, hrun, hops, hcom⟩ := ih open_ trail
      refine ⟨(pardon caught (ended, s₁)).1, s₁, more, ?_, hops, hcom⟩
      rw [run_swallow, hrun]
      exact congrArg (·, trail ++ more) (Prod.ext rfl (pardon_snd caught (ended, s₁)))
  | look next ih => exact ih s open_ trail

end Script

/-! ## The outermost transaction -/

/-- A keyed store collects what a run of operations submits, worked out on one and the same
content. -/
theorem Keyed.collected_of_performAll {k : Keyed} {s' : Store} {ops : List Store.Operation}
    (open_ : k.isOpen = true) (h : ops.foldlM Store.perform (.keyed k) = .ok s') :
    ∃ writes : List (List ByteWrite), ops.mapM k.submission = .ok writes ∧
      s' = .keyed { k with collected := k.collected ++ writes.flatten } := by
  induction ops generalizing k with
  | nil => exact ⟨[], rfl, by simpa using (Except.ok.inj h).symm⟩
  | cons op rest ih =>
      rw [List.foldlM_cons] at h
      cases hop : (Store.keyed k).perform op with
      | error failure => simp [hop, bind, Except.bind] at h
      | ok s₁ =>
          rw [hop] at h
          obtain ⟨first, hfirst, rfl⟩ := collected_of_perform open_ hop
          obtain ⟨writes, hwrites, rfl⟩ := ih (k := { k with collected := k.collected ++ first }) open_ h
          rw [submission_collected] at hwrites
          refine ⟨first :: writes, ?_, by simp [← Array.toList_inj]⟩
          rw [List.mapM_cons, hfirst, hwrites]
          rfl

namespace Store

/-- Undoing an outermost transaction leads back to where it began. -/
theorem rollback_of_performAll {s s' : Store} {ops : List Operation} (idle : s.IsIdle)
    (h : ops.foldlM perform s.enterScope = .ok s') : s'.rollback = s := by
  have hgrown := grown_of_performAll s.isOpen_enterScope h
  cases s with
  | table t =>
      obtain ⟨rows, rfl⟩ := hgrown
      obtain ⟨settings, rows₀, saved, state⟩ := t
      obtain rfl : saved = none := idle
      rfl
  | keyed k =>
      obtain ⟨writes, rfl⟩ := hgrown
      obtain ⟨settings, entries, depth, collected, now⟩ := k
      obtain ⟨rfl, rfl⟩ : depth = 0 ∧ collected = #[] := idle
      rfl

/-- Ending an outermost transaction well makes the writes of its operations. -/
theorem settles_of_performAll {s s' : Store} {ops : List Operation} (idle : s.IsIdle)
    (h : ops.foldlM perform s.enterScope = .ok s') : Settles s ops s'.commit := by
  cases s with
  | table t =>
      obtain ⟨settings, rows, saved, state⟩ := t
      obtain rfl : saved = none := idle
      have hcomm (saved : Option Rows) :
          ops.foldlM perform (withSaved saved (.table ⟨settings, rows, none, state⟩))
            = (ops.foldlM perform (.table ⟨settings, rows, none, state⟩)).map (withSaved saved) :=
        foldlM_comm (perform_withSaved saved) ops _
      have henter := hcomm (some rows)
      -- Without a transaction the operations lead to rows with none to go back to.
      have hnone := hcomm none
      cases hops : ops.foldlM perform (.table ⟨settings, rows, none, state⟩) with
      | error failure =>
          rw [hops] at henter
          exact absurd (henter.symm.trans h) (by simp [Except.map])
      | ok s₂ =>
          rw [hops] at henter
          obtain rfl : withSaved (some rows) s₂ = s' := Except.ok.inj (henter.symm.trans h)
          have hs₂ : s₂ = withSaved none s₂ := by
            rw [hops] at hnone
            exact Except.ok.inj (hops.symm.trans hnone)
          cases s₂ with
          | table t₂ =>
              show ops.foldlM perform (.table ⟨settings, rows, none, state⟩)
                = .ok (withSaved none (table t₂))
              rw [hops, ← hs₂]
          | keyed k₂ =>
              obtain ⟨rows', hkeyed⟩ := grown_of_performAll (isOpen_enterScope _) h
              cases hkeyed
  | keyed k =>
      obtain ⟨settings, entries, depth, collected, now⟩ := k
      obtain ⟨rfl, rfl⟩ : depth = 0 ∧ collected = #[] := idle
      obtain ⟨writes, hwrites, rfl⟩ := Keyed.collected_of_performAll rfl h
      have hsame : (Keyed.submission ⟨settings, entries, 0, #[], now⟩)
          = (Keyed.submission ⟨settings, entries, 1, #[], now⟩) := by
        funext op
        cases op <;> rfl
      refine ⟨writes, hsame ▸ hwrites, ?_⟩
      simp [commit, Keyed.commit, Keyed.leaveScope, Keyed.enterScope]

/-- After an outermost transaction no transaction is open. -/
theorem isIdle_commit {s s' : Store} {ops : List Operation} (idle : s.IsIdle)
    (h : ops.foldlM perform s.enterScope = .ok s') : s'.commit.IsIdle := by
  have hgrown := grown_of_performAll s.isOpen_enterScope h
  cases s with
  | table t =>
      obtain ⟨rows, rfl⟩ := hgrown
      rfl
  | keyed k =>
      obtain ⟨writes, rfl⟩ := hgrown
      have hdepth : k.depth = 0 := idle.1
      exact ⟨by simp [Keyed.commit, Keyed.leaveScope, Keyed.enterScope, hdepth],
        by simp [Keyed.commit, Keyed.leaveScope]⟩

end Store

/-- What a transaction that began at `s` owes, given how its body ended: how it ends itself and
the store that it leaves. `ops` are the operations that the store accepted meanwhile. -/
def Owes (s : Store) (ops : List Store.Operation) :
    Except Stop Unit → Except Stop Unit × Store → Prop
  | .ok (), (ended, after) => ended = .ok () ∧ Settles s ops after
  | .error (.failed _), (ended, after) =>
      (∃ failure, ended = .error (.failed failure) ∧ failure.classify = .storage) ∧ after = s
  | .error .aborted, (ended, after) => ended = .error .aborted ∧ after = s

/-- **A transaction is atomic.** Run a script as an outermost transaction of either kind of
store. As long as it lasts nothing is committed. If the script fails or aborts, the store is
left as it was, and a failure is one of the store. If it ends well, every operation that the
store accepted, also inside inner transactions that failed and were pardoned, has its writes
made in the order of the trail. In every case no transaction stays open and nothing stays
collected. -/
theorem transaction_atomic (body : Script) {s : Store} (idle : s.IsIdle) :
    let inside := body.run s.enterScope []
    let whole := Action.transaction body.run s []
    whole.2 = inside.2 ∧
      (∀ moment ∈ whole.2, moment.2.committed = s) ∧ inside.1.2.committed = s ∧
      Owes s (whole.2.map Prod.fst) inside.1.1 whole.1 ∧ whole.1.2.IsIdle := by
  obtain ⟨ended, s', trail, hrun, hops, hcom⟩ := body.run_inside s.isOpen_enterScope []
  have hcommitted : s.enterScope.committed = s := s.committed_enterScope.trans idle.committed_eq
  have hwhole : Action.transaction body.run s [] = (Action.close (ended, s'), trail) := by
    have hscope := Script.run_scope body s []
    rw [hrun, idle.isOpen_eq] at hscope
    exact hscope
  have hgrown := Store.grown_of_performAll s.isOpen_enterScope hops
  have hrollback : s'.rollback = s := Store.rollback_of_performAll idle hops
  simp only [hrun, hwhole]
  refine ⟨rfl, fun moment h => (hcom moment h).trans hcommitted,
    (hgrown.committed_eq s.isOpen_enterScope).trans hcommitted, ?_⟩
  match ended with
  | .ok () => exact ⟨⟨rfl, Store.settles_of_performAll idle hops⟩, Store.isIdle_commit idle hops⟩
  | .error (.failed failure) =>
      exact ⟨⟨⟨_, rfl, failure.classify_ofTransaction⟩, hrollback⟩,
        show s'.rollback.IsIdle from hrollback.symm ▸ idle⟩
  | .error .aborted => exact ⟨⟨rfl, hrollback⟩, show s'.rollback.IsIdle from hrollback.symm ▸ idle⟩

/-- A node saved in an inner transaction whose failure is pardoned is saved with the one behind
it, in this order. -/
theorem transaction_atomic_pardoned :
    let n := Node.ofCore "module:m" (.module "m" "m")
    let m := Node.ofCore "module:n" (.module "n" "n")
    let inner := Script.scope (.seq (.perform (.saveNode n)) (.stop (.failed (.nodeMissing "x"))))
    let body := Script.seq (.swallow (fun _ => true) inner) (.perform (.saveNode m))
    let s := Store.keyed (.ofEntries .standard ∅ 0)
    s.IsIdle ∧ Owes s [.saveNode n, .saveNode m] (.ok ()) (Action.transaction body.run s []).1 ∧
      (Action.transaction body.run s []).1.2.IsIdle := by
  intro n m inner body s
  have h := transaction_atomic body (s := s) ⟨rfl, rfl⟩
  exact ⟨⟨rfl, rfl⟩, h.2.2.2.1, h.2.2.2.2⟩

end ProgramGraph
