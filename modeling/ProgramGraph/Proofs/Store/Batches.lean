import ProgramGraph.Proofs.Store.Committing

set_option autoImplicit false

/-! # Batches do not show

Records that are saved in batches are saved in one transaction after the other. That leads to the same
end and to the same store as saving them one by one (`Store.IsSettled.batches_alike`), whatever the size
of the batches, whether a transaction is open around them and whether the database is in trouble. Three
facts make it so. Inside a transaction another one makes no difference (`Action.transaction_of_isOpen`).
What is saved is worked out alike in a transaction and without one (`Keyed.committed_eq_direct`). And in
a database that is in trouble the first record fails already, so that no record is undone that saving
one by one would keep (`Table.transaction_of_trouble`).

A store in which no transaction is open has to be at rest for this. It always is: it is so when it is
opened (`Store.isSettled_opened`), and work on it leaves it so (`Store.IsSettled.run`).
-/

namespace ProgramGraph

/-- A node or an edge is saved. -/
def Store.Operation.savesRecord : Store.Operation → Bool
  | .saveNode _ | .saveEdge _ => true
  | _ => false

theorem Store.Operation.saves_of_savesRecord {op : Store.Operation} (h : op.savesRecord = true) :
    op.saves = true := by
  cases op with
  | saveNode | saveEdge => rfl
  | _ => cases h

/-! ## Stores between two pieces of work -/

namespace Store

/-- A transaction is open, or the store is at rest: without a transaction nothing is collected. -/
def IsSettled (s : Store) : Prop := s.isOpen = true ∨ s.IsIdle

/-- Stores are settled when they are opened, whatever is found in them. -/
theorem isSettled_opened :
    (∀ settings rows, (Store.table (.ofRows settings rows)).IsSettled) ∧
      ∀ settings entries now, (Store.keyed (.ofEntries settings entries now)).IsSettled :=
  ⟨fun _ _ => .inr rfl, fun _ _ _ => .inr ⟨rfl, rfl⟩⟩

namespace IsSettled

variable {s s' : Store}

/-- **One operation** keeps a store settled. -/
theorem perform (h : s.IsSettled) {op : Operation} (hop : s.perform op = .ok s') : s'.IsSettled := by
  rcases h with open_ | idle
  · exact .inl ((grown_of_perform open_ hop).isOpen_eq.trans open_)
  · right
    cases s with
    | table t =>
        obtain ⟨rows, rfl⟩ := Table.rewritten_of_perform hop
        exact idle
    | keyed k =>
        obtain ⟨writes, -, rfl⟩ := Keyed.exists_submit_of_perform hop
        rw [Keyed.submit_of_not_isOpen idle.isOpen_eq]
        exact idle

/-- **Any work** keeps a store settled, however it ends. -/
theorem run (h : s.IsSettled) (script : Script) (trail : Trail) :
    (script.run s trail).1.2.IsSettled := by
  induction script generalizing s trail with
  | done => exact h
  | stop why => exact h
  | perform op =>
      cases hop : s.perform op with
      | error failure => exact Script.run_perform_of_error hop trail ▸ h
      | ok s' => exact Script.run_perform_of_ok hop trail ▸ h.perform hop
  | seq first next ihFirst ihNext =>
      have hfirst := ihFirst h trail
      rw [Script.run_seq]
      rcases hrun : first.run s trail with ⟨⟨why | _, s₁⟩, trail₁⟩
      · rw [hrun] at hfirst
        exact hfirst
      · rw [hrun] at hfirst
        exact ihNext hfirst trail₁
  | scope body ih =>
      -- A scope in an open transaction is part of it. Any other is a transaction of its own, which ends here.
      rcases h with open_ | idle
      · obtain ⟨ended, s', more, hrun, hops, -⟩ := (Script.scope body).run_inside open_ trail
        rw [hrun]
        exact .inl ((grown_of_performAll open_ hops).isOpen_eq.trans open_)
      · obtain ⟨ended, s', more, hrun, hops, -⟩ := body.run_inside s.isOpen_enterScope trail
        have hrollback := rollback_of_performAll idle hops
        rw [Script.run_scope, hrun, idle.isOpen_eq]
        right
        cases ended with
        | ok _ => exact isIdle_commit idle hops
        | error why =>
            have hidle : s'.rollback.IsIdle := hrollback.symm ▸ idle
            cases why with
            | failed _ => exact hidle
            | aborted => exact hidle
  | swallow caught body ih =>
      rw [Script.run_swallow, Script.pardon_snd]
      exact ih h trail
  | look next ih => exact ih s h trail

end IsSettled

/-- What is wrong with the file of a store; a keyed store has none. -/
def trouble? : Store → Option DatabaseTrouble
  | .table t => t.state.trouble
  | .keyed _ => none

end Store

/-! ## A transaction of records -/

namespace Action

/-- Performs operations one by one. The result is their number. -/
def performEach (ops : List Store.Operation) : Action Nat := do
  ops.forM perform
  pure ops.length

variable {s s' : Store} {op : Store.Operation} {rest : List Store.Operation}

/-- Operations that follow one that fails are not performed. -/
theorem forM_perform_cons_of_error {failure : Failure} (h : s.perform op = .error failure) :
    runOn (m := Id) ((op :: rest).forM perform) s = (.error (.failed failure), s) :=
  bind_of_error (runOn_perform_of_error h)

theorem forM_perform_cons_of_ok (h : s.perform op = .ok s') :
    runOn (m := Id) ((op :: rest).forM perform) s = runOn (m := Id) (rest.forM perform) s' :=
  bind_of_ends (ends_perform h)

/-- Operations inside an open transaction leave it open, and in another transaction inside it they are
the same. -/
theorem forM_perform_enterScope (open_ : s.isOpen = true) (ops : List Store.Operation) :
    ∃ ended s', runOn (m := Id) (ops.forM perform) s = (ended, s') ∧ s'.isOpen = true ∧
      runOn (m := Id) (ops.forM perform) s.enterScope = (ended, s'.enterScope) := by
  induction ops generalizing s with
  | nil => exact ⟨.ok (), s, rfl, open_, rfl⟩
  | cons op rest ih =>
      have hinner := Store.perform_enterScope open_ op
      cases hop : s.perform op with
      | error failure =>
          rw [hop] at hinner
          exact ⟨_, s, forM_perform_cons_of_error hop, open_, forM_perform_cons_of_error hinner⟩
      | ok s₁ =>
          rw [hop] at hinner
          rw [forM_perform_cons_of_ok hop, forM_perform_cons_of_ok hinner]
          exact ih ((Store.grown_of_perform open_ hop).isOpen_eq.trans open_)

/-- **A transaction inside another** makes no difference to operations. -/
theorem transaction_of_isOpen (open_ : s.isOpen = true) (ops : List Store.Operation) :
    runOn (m := Id) (transaction (ops.forM perform)) s = runOn (m := Id) (ops.forM perform) s := by
  obtain ⟨ended, s', hrun, hopen', hinner⟩ := forM_perform_enterScope open_ ops
  show (if s.isOpen then closeInner else close) (runOn (m := Id) (ops.forM perform) s.enterScope) = _
  rw [hinner, hrun, if_pos open_]
  show (ended, s'.enterScope.leaveScope) = _
  rw [Store.leaveScope_enterScope hopen']

end Action

namespace Keyed

variable {k : Keyed}

/-- What is saved leads to the same entries in a transaction and without one. -/
theorem committed_eq_direct (m : ByteMap) {ops : List Store.Operation}
    (hops : ∀ op ∈ ops, op.saves = true) :
    ∃ m', k.committed m ops = .ok m' ∧ k.direct m ops = .ok m' := by
  induction ops generalizing m with
  | nil => exact ⟨m, rfl, rfl⟩
  | cons op rest ih =>
      have hop := hops op List.mem_cons_self
      obtain ⟨writes, hwrites⟩ := exists_submission_of_saves k hop
      obtain ⟨m', hcommitted, hdirect⟩ :=
        ih (m.writeAll writes) fun o ho => hops o (List.mem_cons_of_mem _ ho)
      exact ⟨m', committed_cons_eq_ok.mpr ⟨writes, hwrites, hcommitted⟩,
        direct_cons_eq_ok.mpr ⟨writes, (submission_of_saves k m hop).trans hwrites, hdirect⟩⟩

/-- A keyed store at rest saves in a transaction as without one. -/
theorem ends_saves (idle : (Store.keyed k).IsIdle) {ops : List Store.Operation}
    (hops : ∀ op ∈ ops, op.saves = true) :
    ∃ s', Action.Ends (ops.forM Action.perform) (.keyed k) () s' ∧
      Action.Ends (Action.transaction (ops.forM Action.perform)) (.keyed k) () s' := by
  obtain ⟨m', hcommitted, hdirect⟩ := k.committed_eq_direct k.entries hops
  have hopen : k.isOpen = false := idle.isOpen_eq
  exact ⟨_, (ends_direct_iff hopen).mpr ⟨m', hdirect, rfl⟩,
    (ends_transaction_iff idle).mpr ⟨m', hcommitted, rfl⟩⟩

end Keyed

namespace Table

variable {t : Table}

/-- A table store at rest, over a database without trouble, performs operations in a transaction as
without one. -/
theorem ends_operations (idle : t.saved = none) (sound : t.state.trouble = none)
    (ops : List Store.Operation) :
    ∃ s', Action.Ends (ops.forM Action.perform) (.table t) () s' ∧
      Action.Ends (Action.transaction (ops.forM Action.perform)) (.table t) () s' := by
  obtain ⟨settings, rows, saved, state⟩ := t
  obtain rfl : saved = none := idle
  have hdirect := performAll_eq (t := ⟨settings, rows, none, state⟩) sound ops
  have hinner := performAll_eq (t := ⟨settings, rows, some rows, state⟩) sound ops
  exact ⟨_, Action.ends_forM_perform hdirect,
    Action.ends_transaction (s := .table ⟨settings, rows, none, state⟩) rfl
      (Action.ends_forM_perform hinner)⟩

/-- A statement that has something to write fails if the database is in trouble. -/
theorem exists_write_failure {state : DatabaseState} (htrouble : state.trouble ≠ none)
    (statement : Statement) :
    ∃ failure, statement.write state true = .error failure ∧ failure.classify = .storage := by
  obtain ⟨trouble, wasBlank⟩ := state
  cases trouble with
  | none => exact absurd rfl htrouble
  | some trouble => cases trouble <;> exact ⟨_, rfl, rfl⟩

/-- No record is entered into a database that is in trouble. -/
theorem exists_save_failure (htrouble : t.state.trouble ≠ none) {op : Store.Operation}
    (hop : op.savesRecord = true) :
    ∃ failure, (Store.table t).perform op = .error failure ∧ failure.classify = .storage := by
  cases op with
  | saveNode n =>
      obtain ⟨failure, hwrite, hclass⟩ := exists_write_failure htrouble Statement.insertNodes
      refine ⟨failure, ?_, hclass⟩
      show (t.saveNode n).map Store.table = _
      rw [saveNode, hwrite]
      rfl
  | saveEdge e =>
      obtain ⟨failure, hwrite, hclass⟩ := exists_write_failure htrouble Statement.insertEdges
      refine ⟨failure, ?_, hclass⟩
      show (t.saveEdge e).map Store.table = _
      rw [saveEdge, hwrite]
      rfl
  | _ => cases hop

/-- A transaction of records fails at the first of them if the database is in trouble, and leaves
nothing to undo. -/
theorem transaction_of_trouble (idle : t.saved = none) (htrouble : t.state.trouble ≠ none)
    {ops : List Store.Operation} (hops : ∀ op ∈ ops, op.savesRecord = true) :
    Action.runOn (m := Id) (Action.transaction (ops.forM Action.perform)) (.table t) =
      Action.runOn (m := Id) (ops.forM Action.perform) (.table t) := by
  obtain ⟨settings, rows, saved, state⟩ := t
  obtain rfl : saved = none := idle
  cases ops with
  | nil => rfl
  | cons op rest =>
      obtain ⟨failure, hfails, hclass⟩ :=
        exists_save_failure (t := ⟨settings, rows, none, state⟩) htrouble (hops op List.mem_cons_self)
      have hinner := perform_withSaved (some rows) ⟨settings, rows, none, state⟩ op
      rw [hfails] at hinner
      -- The first record fails on the rows that are gone back to, so going back changes nothing.
      show Action.close (Action.runOn (m := Id) ((op :: rest).forM Action.perform)
        (.table (withSaved (some rows) ⟨settings, rows, none, state⟩))) = _
      rw [Action.forM_perform_cons_of_error hfails, Action.forM_perform_cons_of_error hinner]
      show (Except.error (Stop.failed failure.ofTransaction), _) = _
      rw [Failure.ofTransaction, if_pos hclass]
      rfl

end Table

namespace Store.IsSettled

open ProgramGraph.Action

variable {s : Store}

/-- **Records are saved in a transaction as without one.** -/
theorem transaction_eq (h : s.IsSettled) {ops : List Operation}
    (hops : ∀ op ∈ ops, op.savesRecord = true) :
    runOn (m := Id) (transaction (ops.forM Action.perform)) s =
      runOn (m := Id) (ops.forM Action.perform) s := by
  have hsaves : ∀ op ∈ ops, op.saves = true := fun op hop =>
    Operation.saves_of_savesRecord (hops op hop)
  rcases h with open_ | idle
  · exact transaction_of_isOpen open_ ops
  · cases s with
    | keyed k =>
        obtain ⟨s', hdirect, hwhole⟩ := Keyed.ends_saves idle hsaves
        exact hwhole.trans hdirect.symm
    | table t =>
        by_cases htrouble : t.state.trouble = none
        · obtain ⟨s', hdirect, hwhole⟩ := Table.ends_operations idle htrouble ops
          exact hwhole.trans hdirect.symm
        · exact Table.transaction_of_trouble idle htrouble hops

/-- Records that are saved one by one leave a store settled, also if one of them fails. -/
theorem forM_perform (h : s.IsSettled) (ops : List Operation) :
    (runOn (m := Id) (ops.forM Action.perform) s).2.IsSettled := by
  induction ops generalizing s with
  | nil => exact h
  | cons op rest ih =>
      cases hop : s.perform op with
      | error failure => rw [forM_perform_cons_of_error hop]; exact h
      | ok s' => rw [forM_perform_cons_of_ok hop]; exact ih (h.perform hop)

/-- **Transactions of records one after the other** save what the records save one by one. -/
theorem pieces_eq (h : s.IsSettled) (pieces : List (List Operation))
    (hops : ∀ op ∈ pieces.flatten, op.savesRecord = true) :
    runOn (m := Id) (pieces.forM fun piece => transaction (piece.forM Action.perform)) s =
      runOn (m := Id) (pieces.flatten.forM Action.perform) s := by
  induction pieces generalizing s with
  | nil => rfl
  | cons piece rest ih =>
      rw [List.flatten_cons] at hops ⊢
      have hpiece := h.transaction_eq fun op hop => hops op (List.mem_append_left _ hop)
      have hsettled := h.forM_perform piece
      have hsplit : (piece ++ rest.flatten).forM Action.perform =
          (piece.forM Action.perform >>= fun _ => rest.flatten.forM Action.perform) := by
        exact List.forM_append
      rw [hsplit]
      show runOn (m := Id) (transaction (piece.forM Action.perform) >>= fun _ => rest.forM _) s = _
      -- A piece that does not end well stops both runs, at the same store.
      refine bind_eq_bind hpiece fun _ s' (hrun : runOn (m := Id) _ s = _) => ?_
      rw [hrun] at hsettled
      exact ih hsettled fun op hop => hops op (List.mem_append_right _ hop)

theorem performInChunks_eq (h : s.IsSettled) {ops : List Operation}
    (hops : ∀ op ∈ ops, op.savesRecord = true) (batchSize : UInt64) :
    runOn (m := Id) (performInChunks ops batchSize) s = runOn (m := Id) (performEach ops) s := by
  have hpieces := h.pieces_eq (chunks batchSize ops) (by rwa [flatten_chunks])
  rw [flatten_chunks] at hpieces
  rw [Action.performInChunks_eq]
  show runOn (m := Id) ((chunks batchSize ops).forM _ >>= fun _ => pure ops.length) s =
    runOn (m := Id) (ops.forM Action.perform >>= fun _ => pure ops.length) s
  exact bind_eq_bind hpieces fun _ _ _ => rfl

end Store.IsSettled

namespace Store

variable {s : Store}

/-- What saves succeeds if there is no trouble, and makes none. -/
theorem exists_perform (sound : s.trouble? = none) (op : Operation) (hop : op.saves = true) :
    ∃ s', s.perform op = .ok s' ∧ s'.trouble? = none := by
  cases s with
  | table t => exact ⟨_, Table.perform_eq sound op, sound⟩
  | keyed k =>
      obtain ⟨writes, hwrites⟩ := Keyed.exists_submission_of_saves k hop
      refine ⟨.keyed (k.submit writes), ?_, rfl⟩
      rw [Keyed.perform_eq, hwrites]
      rfl

theorem exists_performAll (sound : s.trouble? = none) {ops : List Operation}
    (hops : ∀ op ∈ ops, op.saves = true) : ∃ s', ops.foldlM perform s = .ok s' := by
  induction ops generalizing s with
  | nil => exact ⟨s, rfl⟩
  | cons op rest ih =>
      obtain ⟨s₁, hop, hsound⟩ := exists_perform sound op (hops op List.mem_cons_self)
      obtain ⟨s', hrest⟩ := ih hsound fun o ho => hops o (List.mem_cons_of_mem _ ho)
      exact ⟨s', bind_eq_ok.mpr ⟨s₁, hop, hrest⟩⟩

/-- **Saving a graph** does not depend on the size of the batches. -/
theorem saveGraph_eq (s : Store) (g : Graph) (life : Life) (batchSize other : Option UInt64) :
    s.saveGraph g ⟨life, batchSize⟩ = s.saveGraph g ⟨life, other⟩ := by
  cases s with
  | table t =>
      show (t.saveGraph g batchSize).map table = (t.saveGraph g other).map table
      rw [Table.saveGraph_eq_foldlM, Table.saveGraph_eq_foldlM]
  | keyed k => rfl

namespace IsSettled

open ProgramGraph.Action

/-- Records are all saved, in batches of any size, if there is no trouble. -/
theorem exists_ends_performInChunks (h : s.IsSettled) (sound : s.trouble? = none)
    {ops : List Operation} (hops : ∀ op ∈ ops, op.savesRecord = true) :
    ∃ s', ops.foldlM Store.perform s = .ok s' ∧
      ∀ batchSize, Ends (performInChunks ops batchSize) s ops.length s' := by
  obtain ⟨s', hall⟩ := exists_performAll sound fun op hop =>
    Operation.saves_of_savesRecord (hops op hop)
  refine ⟨s', hall, fun batchSize => ?_⟩
  exact (h.performInChunks_eq hops batchSize).trans (ends_bind (ends_forM_perform hall) rfl)

/-- **Batches do not show.** Nodes and edges that are saved in batches of any size are saved as one by
one: the work ends alike and leaves the same store. If the database is in no trouble all of them are
saved, and their number is the result. A graph is saved alike in batches of every size. -/
theorem batches_alike (h : s.IsSettled) :
    (∀ nodes batchSize, runOn (m := Id) (saveNodes nodes batchSize) s =
      runOn (m := Id) (performEach (nodes.map .saveNode)) s) ∧
    (∀ edges batchSize, runOn (m := Id) (saveEdges edges batchSize) s =
      runOn (m := Id) (performEach (edges.map .saveEdge)) s) ∧
    (∀ g life batchSize other,
      s.saveGraph g ⟨life, batchSize⟩ = s.saveGraph g ⟨life, other⟩) ∧
    (s.trouble? = none →
      (∀ nodes : List Node, ∃ s', nodes.foldlM saveNode s = .ok s' ∧
        ∀ batchSize, Ends (saveNodes nodes batchSize) s nodes.length s') ∧
      (∀ edges : List Edge, ∃ s', edges.foldlM saveEdge s = .ok s' ∧
        ∀ batchSize, Ends (saveEdges edges batchSize) s edges.length s') ∧
      ∀ g life, ∃ s', ∀ batchSize, s.saveGraph g ⟨life, batchSize⟩ = .ok s') := by
  have hnodes (nodes : List Node) : ∀ op ∈ nodes.map Operation.saveNode, op.savesRecord = true := by
    simp [Operation.savesRecord]
  have hedges (edges : List Edge) : ∀ op ∈ edges.map Operation.saveEdge, op.savesRecord = true := by
    simp [Operation.savesRecord]
  refine ⟨fun nodes => h.performInChunks_eq (hnodes nodes),
    fun edges => h.performInChunks_eq (hedges edges), s.saveGraph_eq, fun sound => ⟨fun nodes => ?_,
      fun edges => ?_, fun g life => ?_⟩⟩
  · obtain ⟨s', hall, hends⟩ := h.exists_ends_performInChunks sound (hnodes nodes)
    rw [List.foldlM_map] at hall
    rw [List.length_map] at hends
    exact ⟨s', hall, hends⟩
  · obtain ⟨s', hall, hends⟩ := h.exists_ends_performInChunks sound (hedges edges)
    rw [List.foldlM_map] at hall
    rw [List.length_map] at hends
    exact ⟨s', hall, hends⟩
  · obtain ⟨s', hsave, -⟩ := exists_perform sound (.saveGraph g ⟨life, none⟩) rfl
    exact ⟨s', fun batchSize => (s.saveGraph_eq g life batchSize none).trans hsave⟩

/-- Two nodes with one identifier, in batches of every size. -/
theorem batches_alike_repeated :
    let n := Node.ofCore "module:m" (.module "m" "m")
    let m := Node.ofCore "module:m" (.module "n" "n")
    let s := Store.table (.ofRows .inMemory .empty)
    s.IsSettled ∧ s.trouble? = none ∧ ∃ s', [n, m].foldlM saveNode s = .ok s' ∧
      ∀ batchSize, Ends (saveNodes [n, m] batchSize) s 2 s' := by
  intro n m s
  have h : s.IsSettled := isSettled_opened.1 .inMemory .empty
  exact ⟨h, rfl, (h.batches_alike.2.2.2 rfl).1 [n, m]⟩

end IsSettled

end Store

end ProgramGraph
