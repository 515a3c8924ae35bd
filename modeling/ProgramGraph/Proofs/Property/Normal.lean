import ProgramGraph.Proofs.Graph.Document
import ProgramGraph.Proofs.Property.Core

set_option autoImplicit false

/-! # Records in order

Reading a record brings its properties in order: of the fields of the core, null is dropped or
replaced by the fallback, and a missing fallback is put in. Nothing else changes, and a record that
is in order stays as it is (`records_normalise`).
-/

namespace ProgramGraph

/-- What comes of reading a node record. -/
structure NodeRecord.Normalises (r : NodeRecord) : Prop where
  /-- The record is rejected just if a field of the core is given something of another shape. -/
  rejected_iff : (∃ failure, Node.ofRecord r = .error failure) ↔
    ∃ f ∈ NodeCore.coreFields r.kind, f.admits r.properties = false
  /-- The node has the record in order. -/
  settles : ∀ n, Node.ofRecord r = .ok n → n.record.id = r.id ∧ n.record.kind = r.kind ∧
    ∀ key : String, n.record.properties[key]? =
      r.properties.settled? (NodeCore.coreFields r.kind) key
  /-- From that record the same node is read. -/
  stays : ∀ n, Node.ofRecord r = .ok n → ∃ n', Node.ofRecord n.record = .ok n' ∧ n'.Alike n

/-- What comes of reading an edge record. -/
structure EdgeRecord.Normalises (r : EdgeRecord) : Prop where
  /-- The record is rejected just if a field of the core is given something of another shape. -/
  rejected_iff : (∃ failure, Edge.ofRecord r = .error failure) ↔
    ∃ f ∈ EdgeCore.coreFields r.kind, f.admits r.properties = false
  /-- The edge has the record in order. -/
  settles : ∀ e, Edge.ofRecord r = .ok e →
    e.record.source = r.source ∧ e.record.target = r.target ∧ e.record.kind = r.kind ∧
      ∀ key : String, e.record.properties[key]? =
        r.properties.settled? (EdgeCore.coreFields r.kind) key
  /-- From that record the same edge is read. -/
  stays : ∀ e, Edge.ofRecord r = .ok e → ∃ e', Edge.ofRecord e.record = .ok e' ∧ e'.Alike e

theorem Node.IsApart.exists_ofRecord_record {n : Node} (h : n.IsApart) :
    ∃ n', Node.ofRecord n.record = .ok n' ∧ n'.Alike n :=
  ⟨_, h.ofRecord_of_same fun _ => rfl, rfl, rfl,
    n.core.within_fields.getElem?_without_of_same h fun _ => rfl⟩

theorem Edge.IsApart.exists_ofRecord_record {e : Edge} (h : e.IsApart) :
    ∃ e', Edge.ofRecord e.record = .ok e' ∧ e'.Alike e :=
  ⟨_, h.ofRecord_of_same fun _ => rfl, rfl, rfl, rfl,
    e.core.within_fields.getElem?_without_of_same h fun _ => rfl⟩

theorem NodeRecord.normalises (r : NodeRecord) : r.Normalises where
  rejected_iff := Node.ofProperties_eq_error_iff
  settles _ hn :=
    have hread := Node.read_of_ofProperties hn
    ⟨hread.id_eq, hread.core.kind_eq, hread.getElem?_properties⟩
  stays _ hn := (Node.read_of_ofProperties hn).isApart.exists_ofRecord_record

theorem EdgeRecord.normalises (r : EdgeRecord) : r.Normalises where
  rejected_iff := Edge.ofProperties_eq_error_iff
  settles _ he :=
    have hread := Edge.read_of_ofProperties he
    ⟨hread.source_eq, hread.target_eq, hread.core.kind_eq, hread.getElem?_properties⟩
  stays _ he := (Edge.read_of_ofProperties he).isApart.exists_ofRecord_record

/-- **Records are brought in order in one step**, those of nodes and those of edges. -/
theorem records_normalise : (∀ r : NodeRecord, r.Normalises) ∧ ∀ r : EdgeRecord, r.Normalises :=
  ⟨NodeRecord.normalises, EdgeRecord.normalises⟩

end ProgramGraph
