import ProgramGraph.Store.Action

set_option autoImplicit false

/-! # Work in pieces is work item by item

Cutting a list loses nothing and keeps its order (`flatten_chunks`), so steps that are made piece by
piece are made item by item (`foldlM_pieces`). Of the rows that a statement enters the later ones find
those before them already entered. So records that are entered by several statements, and graphs that
are saved in batches, are saved one record at a time (`saveGraph_eq_foldlM`), whether the statements
go through or not.
-/

namespace ProgramGraph

/-! ## Pieces -/

theorem flatten_cutPieces {α : Type} {length bound : Nat} (hlength : 0 < length) {items : List α}
    (h : items.length ≤ bound) : (cutPieces length bound items).flatten = items := by
  induction bound generalizing items with
  | zero =>
      rw [List.eq_nil_of_length_eq_zero (Nat.le_zero.mp h)]
      rfl
  | succ bound ih =>
      cases items with
      | nil => rfl
      | cons a rest =>
          have hrest : ((a :: rest).drop length).length ≤ bound := by
            rw [List.length_drop]
            simp only [List.length_cons] at h ⊢
            omega
          rw [cutPieces, List.flatten_cons, ih hrest, List.take_append_drop]
          exact List.cons_ne_nil a rest

/-- Cutting a list into pieces loses nothing. -/
theorem flatten_chunks {α : Type} (batchSize : UInt64) (items : List α) :
    (chunks batchSize items).flatten = items :=
  flatten_cutPieces (Nat.lt_of_lt_of_le Nat.one_pos (Nat.le_max_right _ _)) (Nat.le_refl _)

/-- Working piece by piece is working item by item. -/
theorem foldlM_pieces {α β : Type} (step : β → α → Outcome β) (pieces : List (List α)) (b : β) :
    pieces.foldlM (fun acc piece => piece.foldlM step acc) b = pieces.flatten.foldlM step b := by
  induction pieces generalizing b with
  | nil => rfl
  | cons piece rest ih =>
      rw [List.foldlM_cons, List.flatten_cons, List.foldlM_append]
      exact bind_congr fun b' => ih b'

/-- Work that does a piece item by item does a list item by item, whatever the size of the pieces. -/
theorem foldlM_chunks {α β : Type} {step : β → α → Outcome β} {work : β → List α → Outcome β}
    (h : ∀ b piece, work b piece = piece.foldlM step b) (batchSize : UInt64) (items : List α) (b : β) :
    (chunks batchSize items).foldlM work b = items.foldlM step b := by
  rw [funext fun b => funext (h b), foldlM_pieces, flatten_chunks]

/-! ## Rows of a statement -/

namespace Table

/-- Enters one record by a statement of its own. -/
def insertOne {α : Type} (statement : Statement) (put : Rows → α → Rows) (t : Table) (a : α) :
    Outcome Table := do
  statement.write t.state true
  pure (t.change fun rows => put rows a)

section

variable {α : Type} (statement : Statement) (put : Rows → α → Rows)

/-- A statement goes through for all its rows if it does for one of them. -/
theorem insertAtOnce_eq (t : Table) (records : List α) :
    insertAtOnce statement put t records = records.foldlM (insertOne statement put) t := by
  cases records with
  | nil => rfl
  | cons first rest =>
      rw [insertAtOnce, List.foldlM_cons, insertOne]
      show (statement.write t.state true >>= fun _ => pure _) = _
      cases hwrite : statement.write t.state true with
      | error failure => rfl
      | ok _ =>
          -- What is entered does not change the state of the file.
          suffices h : ∀ (rest : List α) (rows : Rows),
              rest.foldlM (insertOne statement put) (t.change fun _ => rows) =
                .ok (t.change fun _ => rest.foldl put rows) from (h rest (put t.rows first)).symm
          intro rest
          induction rest with
          | nil => exact fun rows => rfl
          | cons a rest ih =>
              intro rows
              have hstep : insertOne statement put (t.change fun _ => rows) a =
                  .ok (t.change fun _ => put rows a) := by
                show (statement.write t.state true >>= _) = _
                rw [hwrite]
                rfl
              rw [List.foldlM_cons, hstep]
              exact ih (put rows a)

/-- Records are entered as by one statement each. -/
theorem insertAll_eq (columns : UInt64) (t : Table) (records : List α) :
    insertAll statement columns put t records = records.foldlM (insertOne statement put) t :=
  foldlM_chunks (insertAtOnce_eq statement put) _ records t

end

/-- **Nodes are entered one by one**, as few statements as it may take. -/
theorem insertNodes_eq (t : Table) (nodes : List Node) : t.insertNodes nodes = nodes.foldlM saveNode t :=
  insertAll_eq _ _ _ t nodes

/-- **Edges are entered one by one.** -/
theorem insertEdges_eq (t : Table) (edges : List Edge) : t.insertEdges edges = edges.foldlM saveEdge t :=
  insertAll_eq _ _ _ t edges

/-- **A graph is saved record by record**, whatever the size of the batches, and whether the database
is in trouble or not. -/
theorem saveGraph_eq_foldlM (t : Table) (g : Graph) (batchSize : Option UInt64) :
    t.saveGraph g batchSize =
      (g.nodeList.foldlM saveNode t >>= fun withNodes => g.edgeList.foldlM saveEdge withNodes) := by
  rw [saveGraph]
  show ((chunks _ g.nodeList).foldlM insertNodes t >>= fun withNodes =>
    (chunks _ g.edgeList).foldlM insertEdges withNodes) = _
  rw [foldlM_chunks insertNodes_eq]
  exact bind_congr fun withNodes => foldlM_chunks insertEdges_eq _ _ withNodes

end Table

/-! ## Operations in pieces -/

namespace Action

/-- Work in pieces that counts what is done. -/
theorem foldlM_count {α : Type} (work : List α → Action Unit) (pieces : List (List α)) (n : Nat) :
    pieces.foldlM (fun done piece => do work piece; pure (done + piece.length)) n =
      (do pieces.forM work; pure (n + pieces.flatten.length)) := by
  induction pieces generalizing n with
  | nil => simp
  | cons piece rest ih =>
      show _ = ((work piece >>= fun _ => rest.forM work) >>= fun _ => pure _)
      rw [List.foldlM_cons, bind_assoc, bind_assoc]
      refine bind_congr fun _ => ?_
      rw [pure_bind, ih, List.flatten_cons, List.length_append, Nat.add_assoc]

/-- **The pieces are counted in full**: work that ends well has done all operations. -/
theorem performInChunks_eq (ops : List Store.Operation) (batchSize : UInt64) :
    performInChunks ops batchSize = (do
      (chunks batchSize ops).forM fun piece => transaction (piece.forM perform)
      pure ops.length) := by
  rw [performInChunks, foldlM_count, flatten_chunks, Nat.zero_add]

end Action

end ProgramGraph
