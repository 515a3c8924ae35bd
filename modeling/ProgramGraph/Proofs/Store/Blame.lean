import ProgramGraph.Proofs.Property.Core
import ProgramGraph.Proofs.Store.Chunk
import ProgramGraph.Sync.Fragment

set_option autoImplicit false

/-! # What a store fails with

A store that fails names a statement, a record that it cannot decode, or an edge without an end. It
never reports that a file to be parsed is missing, too large or in an unsupported language: such
failures come from readers alone (`Store.perform_blamesNoFile`, `Store.fragment_blamesNoFile`).
-/

namespace ProgramGraph

/-- The outcome is no failure to read a file. -/
def BlamesNoFile {α : Type} (x : Outcome α) : Prop := ∀ problem, x ≠ .error (.file problem)

namespace BlamesNoFile

variable {α β : Type} {x : Outcome α}

theorem ok (a : α) : BlamesNoFile (.ok a) := fun _ h => by cases h

theorem bind (hx : BlamesNoFile x) {f : α → Outcome β} (hf : ∀ a, BlamesNoFile (f a)) :
    BlamesNoFile (x >>= f) := by
  cases x with
  | error failure => exact fun problem h => hx problem (congrArg Except.error (Except.error.inj h))
  | ok a => exact hf a

theorem map (hx : BlamesNoFile x) (f : α → β) : BlamesNoFile (x.map f) :=
  hx.bind fun a => ok (f a)

theorem mapM {read : α → Outcome β} (h : ∀ a, BlamesNoFile (read a)) (items : List α) :
    BlamesNoFile (items.mapM read) := by
  induction items with
  | nil => exact ok []
  | cons a rest ih =>
      rw [List.mapM_cons]
      exact (h a).bind fun b => ih.bind fun more => ok (b :: more)

theorem foldlM {step : β → α → Outcome β} (h : ∀ acc a, BlamesNoFile (step acc a)) (items : List α)
    (acc : β) : BlamesNoFile (items.foldlM step acc) := by
  induction items generalizing acc with
  | nil => exact ok acc
  | cons a rest ih =>
      rw [List.foldlM_cons]
      exact (h acc a).bind ih

end BlamesNoFile

open BlamesNoFile

/-! ## Records -/

theorem CoreField.checkAll_blamesNoFile (fields : List CoreField) (owner : String) (props : Properties) :
    BlamesNoFile (CoreField.checkAll fields owner props) := by
  induction fields with
  | nil => exact ok ()
  | cons f rest ih =>
      refine bind (x := f.check owner props) ?_ fun _ => ih
      unfold CoreField.check
      split
      · exact fun _ h => by cases h
      · exact ok ()

theorem Node.ofProperties_blamesNoFile (owner id : String) (kind : NodeKind) (props : Properties) :
    BlamesNoFile (Node.ofProperties owner id kind props) := by
  obtain ⟨core, -, htake⟩ :=
    NodeCore.takes_take props kind (NodeCore.nodup_key_coreFields kind) owner props fun _ _ => rfl
  rw [Node.ofProperties, htake]
  exact ((CoreField.checkAll_blamesNoFile _ _ _).map _).map _

theorem Edge.ofProperties_blamesNoFile (source target : String) (kind : EdgeKind) (props : Properties) :
    BlamesNoFile (Edge.ofProperties source target kind props) := by
  obtain ⟨core, -, htake⟩ := EdgeCore.takes_take props kind (EdgeCore.nodup_key_coreFields kind)
    ("edge " ++ source ++ " -> " ++ target) props fun _ _ => rfl
  rw [Edge.ofProperties, htake]
  exact ((CoreField.checkAll_blamesNoFile _ _ _).map _).map _

theorem readProperties_blamesNoFile (written : String) : BlamesNoFile (readProperties written) := by
  unfold readProperties
  split
  · exact ok _
  · exact fun _ h => by cases h

theorem NodeRow.toNode_blamesNoFile (id : String) (row : NodeRow) : BlamesNoFile (row.toNode id) :=
  (readProperties_blamesNoFile _).bind fun _ => Node.ofProperties_blamesNoFile _ _ _ _

theorem EdgeRow.toEdge_blamesNoFile (key : EdgeKey) (row : EdgeRow) : BlamesNoFile (row.toEdge key) :=
  (readProperties_blamesNoFile _).bind fun _ => Edge.ofProperties_blamesNoFile _ _ _ _

/-! ## Reading -/

theorem Statement.read_blamesNoFile (statement : Statement) (state : DatabaseState) :
    BlamesNoFile (statement.read state) := by
  unfold Statement.read
  split <;> exact fun _ h => by cases h

theorem Statement.write_blamesNoFile (statement : Statement) (state : DatabaseState) (found : Bool) :
    BlamesNoFile (statement.write state found) := by
  unfold Statement.write
  split
  · split <;> exact fun _ h => by cases h
  · exact statement.read_blamesNoFile state

namespace Table

variable (t : Table)

theorem node?_blamesNoFile (id : String) : BlamesNoFile (t.node? id) := by
  refine (Statement.read_blamesNoFile _ _).bind fun _ => ?_
  unfold Rows.node?
  split
  · exact (NodeRow.toNode_blamesNoFile _ _).map _
  · exact ok none

theorem edgesFrom_blamesNoFile (source : String) (target : Option String) (kind : Option EdgeKind) :
    BlamesNoFile (t.edgesFrom source target kind) := by
  refine (Statement.read_blamesNoFile _ _).bind fun _ => ?_
  exact mapM (fun _ => EdgeRow.toEdge_blamesNoFile _ _) _

theorem saveNode_blamesNoFile (n : Node) : BlamesNoFile (t.saveNode n) :=
  (Statement.write_blamesNoFile _ _ _).bind fun _ => ok _

theorem saveEdge_blamesNoFile (e : Edge) : BlamesNoFile (t.saveEdge e) :=
  (Statement.write_blamesNoFile _ _ _).bind fun _ => ok _

theorem saveGraph_blamesNoFile (g : Graph) (batchSize : Option UInt64) :
    BlamesNoFile (t.saveGraph g batchSize) := by
  rw [saveGraph_eq_foldlM]
  exact (foldlM saveNode_blamesNoFile _ _).bind fun _ => foldlM saveEdge_blamesNoFile _ _

theorem deleteNode_blamesNoFile (id : String) : BlamesNoFile (t.deleteNode id) :=
  (Statement.write_blamesNoFile _ _ _).bind fun _ =>
    (Statement.write_blamesNoFile _ _ _).bind fun _ => ok _

theorem deleteEdge_blamesNoFile (source target : String) (kind : Option EdgeKind) :
    BlamesNoFile (t.deleteEdge source target kind) :=
  (Statement.write_blamesNoFile _ _ _).bind fun _ => ok _

end Table

namespace Keyed

variable (k : Keyed)

theorem decodeNode_blamesNoFile (payload : Text.Bytes) : BlamesNoFile (decodeNode payload) := by
  unfold decodeNode
  split <;> exact fun _ h => by cases h

theorem decodeEdge_blamesNoFile (payload : Text.Bytes) : BlamesNoFile (decodeEdge payload) := by
  unfold decodeEdge
  split <;> exact fun _ h => by cases h

theorem node?_blamesNoFile (id : String) : BlamesNoFile (k.node? id) := by
  unfold node?
  split
  · exact (decodeNode_blamesNoFile _).map _
  · exact ok none

theorem edgesUnder_blamesNoFile (start : Text.Bytes) : BlamesNoFile (k.edgesUnder start) :=
  mapM (fun _ => decodeEdge_blamesNoFile _) _

theorem edgesFrom_blamesNoFile (source : String) (target : Option String) (kind : Option EdgeKind) :
    BlamesNoFile (k.edgesFrom source target kind) :=
  (k.edgesUnder_blamesNoFile _).bind fun _ => ok _

theorem edgesTo_blamesNoFile (target : String) (kind : Option EdgeKind) :
    BlamesNoFile (k.edgesTo target kind) :=
  (k.edgesUnder_blamesNoFile _).bind fun _ => ok _

theorem nodeDeletes_blamesNoFile (id : String) : BlamesNoFile (k.nodeDeletes id) := by
  refine (k.edgesFrom_blamesNoFile _ _ _).bind fun _ => ?_
  dsimp only
  split
  · exact (k.edgesTo_blamesNoFile _ _).bind fun _ => ok _
  · exact ok _

theorem betweenDeletes_blamesNoFile (source target : String) (kind : Option EdgeKind) :
    BlamesNoFile (k.betweenDeletes source target kind) := by
  cases kind with
  | some kind => exact ok _
  | none => exact (k.edgesFrom_blamesNoFile _ _ _).bind fun _ => ok _

end Keyed

namespace Store

variable (s : Store)

theorem node?_blamesNoFile (id : String) : BlamesNoFile (s.node? id) :=
  match s with
  | .table t => t.node?_blamesNoFile id
  | .keyed k => k.node?_blamesNoFile id

theorem edgesFrom_blamesNoFile (source : String) (target : Option String) (kind : Option EdgeKind) :
    BlamesNoFile (s.edgesFrom source target kind) :=
  match s with
  | .table t => t.edgesFrom_blamesNoFile source target kind
  | .keyed k => k.edgesFrom_blamesNoFile source target kind

/-- **An operation** on a store never fails over a file to be parsed. -/
theorem perform_blamesNoFile (op : Operation) : BlamesNoFile (s.perform op) := by
  cases s with
  | table t =>
      cases op with
      | saveNode n => exact (t.saveNode_blamesNoFile n).map _
      | saveEdge e => exact (t.saveEdge_blamesNoFile e).map _
      | saveGraph g options => exact (t.saveGraph_blamesNoFile g _).map _
      | deleteNode id => exact (t.deleteNode_blamesNoFile id).map _
      | deleteEdge source target kind => exact (t.deleteEdge_blamesNoFile source target kind).map _
      | clear => exact ((Statement.write_blamesNoFile _ _ _).bind fun _ => ok _).map _
  | keyed k =>
      cases op with
      | deleteNode id => exact ((k.nodeDeletes_blamesNoFile id).map _).map _
      | deleteEdge source target kind =>
          exact ((k.betweenDeletes_blamesNoFile source target kind).map _).map _
      | _ => exact ok _

theorem addEdge_blamesNoFile (g : Graph) (e : Edge) : BlamesNoFile (g.addEdge e) := by
  unfold Graph.addEdge
  split
  · exact fun _ h => by cases h
  · split <;> exact fun _ h => by cases h

theorem addEdgesOf_blamesNoFile (path : String) (edges : List Edge) (acc : Graph × List String) :
    BlamesNoFile (s.addEdgesOf path acc edges) := by
  induction edges generalizing acc with
  | nil => exact ok acc
  | cons e rest ih =>
      obtain ⟨g, todo⟩ := acc
      unfold addEdgesOf
      split
      · exact (addEdge_blamesNoFile g e).bind fun _ => ih _
      · refine (s.node?_blamesNoFile _).bind fun found => ?_
        cases found with
        | none => exact ih _
        | some target => exact (addEdge_blamesNoFile _ e).bind fun _ => ih _

theorem growFragment_blamesNoFile (path : String) (steps : Nat) (acc : Graph × List String) :
    BlamesNoFile (s.growFragment path steps acc) := by
  induction steps generalizing acc with
  | zero => exact ok _
  | succ steps ih =>
      obtain ⟨g, _ | ⟨id, todo⟩⟩ := acc
      · exact ok g
      · exact (s.edgesFrom_blamesNoFile _ _ _).bind fun edges =>
          (s.addEdgesOf_blamesNoFile path edges _).bind fun _ => ih _

/-- **The fragment** of a file is never missing because of the file itself. -/
theorem fragment_blamesNoFile (path : String) : BlamesNoFile (s.fragment path) := by
  refine (s.node?_blamesNoFile _).bind fun found => ?_
  cases found with
  | none => exact ok _
  | some n => exact s.growFragment_blamesNoFile path _ _

end Store

end ProgramGraph
