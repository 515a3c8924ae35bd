import ProgramGraph.Proofs.Store.Rows
import ProgramGraph.Store.Table

set_option autoImplicit false

/-! # Reading a table store

A table store whose database can be read, and whose rows decode, answers every question, and
its answers are those of its rows.
-/

namespace ProgramGraph

/-- Statements that read find what they look for. -/
def DatabaseState.IsReadable (state : DatabaseState) : Prop :=
  state.trouble = none ∨ state.trouble = some .removed

theorem Statement.read_eq {state : DatabaseState} (h : state.IsReadable) (s : Statement) :
    s.read state = .ok () := by
  rcases h with h | h <;> simp [Statement.read, h]

/-- Statements that read fail otherwise, with a fault of the database. -/
theorem Statement.exists_read_eq_error {state : DatabaseState} (h : ¬state.IsReadable) (s : Statement) :
    ∃ message, s.read state = .error (.storage message) := by
  unfold DatabaseState.IsReadable at h
  unfold Statement.read
  split
  case h_1 htrouble => exact absurd (.inl htrouble) h
  case h_2 htrouble => exact absurd (.inr htrouble) h
  case h_3 => exact ⟨_, rfl⟩
  case h_4 => exact ⟨_, rfl⟩

namespace Table

variable {t : Table}

/-- What a search for nodes gives: a page of those that the filter accepts, if the rows of nodes can be read. -/
theorem findNodes_eq_of_nodes {filter : Filter} (hstate : t.state.IsReadable)
    (hnodes : ∀ id (row : NodeRow), t.rows.nodes[id]? = some row → ∃ n, row.toNode id = .ok n)
    (hadmits : t.rows.Admits filter) (kind : Option NodeKind) (limit : Option Nat) (offset : Nat) :
    t.findNodes kind filter limit offset =
      .ok (let rest := ((t.rows.nodeList kind).filter filter.accepts).drop offset
        limit.elim rest rest.take) := by
  have hjudged : ∀ entry ∈ t.rows.nodeRows kind, ∃ n, Rows.IsJudged filter entry n := by
    rintro ⟨id, row⟩ hentry
    have hrow := (Rows.mem_nodeRows.mp hentry).1
    obtain ⟨n, hn⟩ := hnodes id row hrow
    cases hread : readProperties row.properties with
    | error failure =>
        have : row.toNode id = .error failure := by rw [NodeRow.toNode, hread]; rfl
        rw [this] at hn
        cases hn
    | ok props =>
        obtain ⟨admitted, hanswer, hsound⟩ := hadmits id row props n hrow hread hn
        refine ⟨n, props, admitted, hread, ?_, hanswer, hsound⟩
        have : row.toNode id = Node.ofRecord ⟨id, row.kind, props⟩ := by
          rw [NodeRow.toNode, hread]
          rfl
        exact this ▸ hn
  unfold findNodes
  simp only [Statement.read_eq hstate]
  split
  · exact Rows.page_eq hjudged limit offset
  · exact Rows.page_eq hjudged limit offset

theorem findNodes_eq {filter : Filter} (hstate : t.state.IsReadable) (hdecodes : t.rows.Decodes)
    (hadmits : t.rows.Admits filter) (kind : Option NodeKind) (limit : Option Nat) (offset : Nat) :
    t.findNodes kind filter limit offset =
      .ok (let rest := ((t.rows.nodeList kind).filter filter.accepts).drop offset
        limit.elim rest rest.take) :=
  t.findNodes_eq_of_nodes hstate hdecodes.node hadmits kind limit offset

theorem edgesFrom_eq (hstate : t.state.IsReadable) (hdecodes : t.rows.Decodes) (source : String)
    (target : Option String) (kind : Option EdgeKind) :
    t.edgesFrom source target kind = .ok (t.rows.edgeList fun key =>
      key.source = source && (target.all fun t => key.target = t) &&
        kind.all fun k => key.kind = k) := by
  simp only [edgesFrom, Statement.read_eq hstate]
  exact hdecodes.edgesBy_eq _

theorem edgesTo_eq (hstate : t.state.IsReadable) (hdecodes : t.rows.Decodes) (target : String)
    (kind : Option EdgeKind) :
    t.edgesTo target kind = .ok (t.rows.edgeList fun key =>
      key.target = target && kind.all fun k => key.kind = k) := by
  simp only [edgesTo, Statement.read_eq hstate]
  exact hdecodes.edgesBy_eq _

end Table

end ProgramGraph
