import ProgramGraph.Proofs.Graph.Document
import ProgramGraph.Proofs.Node.Content
import ProgramGraph.Proofs.Store.Rows

set_option autoImplicit false

/-! # Graphs in JSON

A graph that is built step by step gets its extra properties one by one. On a node a name that the
core owns is refused, so nodes keep apart and come back from JSON. On an edge no name is refused.
What is read never holds a name that the core owns among the extra properties: of each such name the
core is asked, and takes it. So the graph comes back just if its edges happen to keep apart
(`ofJson_toJson_iff`).
-/

namespace ProgramGraph

open ProgramGraph.Wire

/-! ## Records -/

/-- A node record in JSON. -/
theorem NodeRecord.ofWire?_toWire (r : NodeRecord) (encoding : Encoding) :
    ofWire? encoding r.toWire = some ⟨r.id, r.kind, r.properties.rebuilt⟩ := by
  rw [toWire, ofWire?, members?_node]
  show (do
    let id ← Value.text? (.text r.id)
    let kind ← Value.case? encoding NodeKind.named (.text r.kind.name)
    let properties ← Properties.ofWire? r.properties.toWire
    pure (⟨id, kind, properties⟩ : NodeRecord)) = _
  rw [case?_nodeKind, Properties.ofWire?_toWire]
  rfl

/-- An edge record in JSON. -/
theorem EdgeRecord.ofWire?_toWire (r : EdgeRecord) (encoding : Encoding) :
    ofWire? encoding r.toWire = some ⟨r.source, r.target, r.kind, r.properties.rebuilt⟩ := by
  rw [toWire, ofWire?, members?_edge]
  show (do
    let source ← Value.text? (.text r.source)
    let target ← Value.text? (.text r.target)
    let kind ← Value.case? encoding EdgeKind.named (.text r.kind.name)
    let properties ← Properties.ofWire? r.properties.toWire
    pure (⟨source, target, kind, properties⟩ : EdgeRecord)) = _
  rw [case?_edgeKind, Properties.ofWire?_toWire]
  rfl

theorem Node.IsApart.ofWire?_toWire {n : Node} (h : n.IsApart) (encoding : Encoding) :
    ofWire? encoding n.toWire = some n.reread := by
  show (NodeRecord.ofWire? encoding n.record.toWire).bind _ = _
  rw [NodeRecord.ofWire?_toWire, Option.bind_some]
  exact congrArg Except.toOption h.ofRecord_rebuilt

theorem Edge.ofWire?_toWire (e : Edge) (encoding : Encoding) :
    ofWire? encoding e.toWire =
      (ofRecord ⟨e.source, e.target, e.kind, e.properties.rebuilt⟩).toOption := by
  show (EdgeRecord.ofWire? encoding e.record.toWire).bind _ = _
  rw [EdgeRecord.ofWire?_toWire, Option.bind_some]
  rfl

theorem Edge.IsApart.ofWire?_toWire {e : Edge} (h : e.IsApart) (encoding : Encoding) :
    ofWire? encoding e.toWire = some e.reread := by
  rw [Edge.ofWire?_toWire, h.ofRecord_rebuilt]
  rfl

/-- What has the same extra properties keeps apart as well. -/
theorem Edge.Alike.isApart {d e : Edge} (h : d.Alike e) (hapart : d.IsApart) : e.IsApart := by
  intro key hkey
  have hkind : d.kind = e.kind := congrArg EdgeCore.kind h.core
  rw [← h.extra]
  exact hapart key (hkind ▸ hkey)

/-- No edge that is read has an extra property with a name that its core owns. -/
theorem Edge.isApart_of_ofRecord {r : EdgeRecord} {e : Edge} (h : ofRecord r = .ok e) : e.IsApart :=
  (Edge.read_of_ofProperties h).isApart

/-- Every float of the graph comes back from its JSON text. -/
structure Graph.KeepsFloats (g : Graph) : Prop where
  nodes : ∀ n ∈ g.nodeList, n.extra.KeepsFloats
  edges : ∀ e ∈ g.edgeList, e.extra.KeepsFloats

/-- Where no value is a float, none has to come back. -/
theorem Properties.keepsFloats_of_toList {props : Properties}
    (h : ∀ entry ∈ props.toList, entry.2.kindName ≠ "float") : props.KeepsFloats :=
  fun key x hx => absurd rfl (h (key, .float x) (Std.TreeMap.mem_toList_iff_getElem?_eq_some.mpr hx))

theorem Node.keeps_toWire {n : Node} (h : n.extra.KeepsFloats) : Json.Keeps n.toWire := by
  have hkept : n.properties.KeepsFloats := fun key x h' =>
    h key x (n.core.within_fields.float_of_putOver n.core.fields_ne_float h')
  refine .map (fun entry hentry => ?_) fun entry hentry => ?_
  · simp only [List.mem_cons, List.not_mem_nil, or_false] at hentry
    rcases hentry with rfl | rfl | rfl <;> exact ⟨_, rfl⟩
  · simp only [List.mem_cons, List.not_mem_nil, or_false] at hentry
    rcases hentry with rfl | rfl | rfl
    · exact .text _
    · exact .text _
    · exact hkept.keeps

theorem Edge.keeps_toWire {e : Edge} (h : e.extra.KeepsFloats) : Json.Keeps e.toWire := by
  have hkept : e.properties.KeepsFloats := fun key x h' =>
    h key x (e.core.within_fields.float_of_putOver e.core.fields_ne_float h')
  refine .map (fun entry hentry => ?_) fun entry hentry => ?_
  · simp only [List.mem_cons, List.not_mem_nil, or_false] at hentry
    rcases hentry with rfl | rfl | rfl | rfl <;> exact ⟨_, rfl⟩
  · simp only [List.mem_cons, List.not_mem_nil, or_false] at hentry
    rcases hentry with rfl | rfl | rfl | rfl
    · exact .text _
    · exact .text _
    · exact .text _
    · exact hkept.keeps

theorem Graph.KeepsFloats.keeps {g : Graph} (h : g.KeepsFloats) : Json.Keeps g.document := by
  refine .map (fun entry hentry => ?_) fun entry hentry => ?_
  · simp only [List.mem_cons, List.not_mem_nil, or_false] at hentry
    rcases hentry with rfl | rfl <;> exact ⟨_, rfl⟩
  · simp only [List.mem_cons, List.not_mem_nil, or_false] at hentry
    rcases hentry with rfl | rfl
    · refine .map (fun entry hentry => ?_) fun entry hentry => ?_
      · obtain ⟨old, -, rfl⟩ := List.mem_map.mp hentry
        exact ⟨old.1, rfl⟩
      · obtain ⟨old, hold, rfl⟩ := List.mem_map.mp hentry
        refine Node.keeps_toWire (h.nodes old.2 ?_)
        rw [nodeList, values_eq_map]
        exact List.mem_map_of_mem hold
    · refine .list fun v hv => ?_
      obtain ⟨e, he, rfl⟩ := List.mem_map.mp hv
      exact Edge.keeps_toWire (h.edges e he)

theorem Graph.KeepsFloats.ofJson_toJson {g : Graph} (h : g.KeepsFloats) :
    Graph.ofJson g.toJson =
      ofDocument .named .graphJson (some (g.written Node.toWire Edge.toWire)) := by
  show ofDocument .named .graphJson (Json.parse? (Json.print g.document)) = _
  rw [Json.parse?_print h.keeps]
  rfl

/-! ## Building -/

/-- The nodes that are made of a core and get their extra properties one by one. -/
inductive Node.Built : Node → Prop where
  | ofCore (id : String) (core : NodeCore) : Built (.ofCore id core)
  | identified (core : NodeCore) (path : Option String) : Built (.identified core path)
  | withExtra {n : Node} (h : Built n) (key : String) (value : Property) : Built (n.withExtra key value)

theorem Node.Built.isApart {n : Node} (h : n.Built) : n.IsApart := by
  induction h with
  | ofCore id core => exact isApart_ofCore id core
  | identified core path => exact isApart_ofCore _ core
  | withExtra _ key value ih => exact ih.withExtra key value

/-- The edges that are made of a core and get their extra properties one by one. -/
inductive Edge.Built : Edge → Prop where
  | ofCore (source target : String) (core : EdgeCore) : Built (.ofCore source target core)
  | withExtra {e : Edge} (h : Built e) (key : String) (value : Property) : Built (e.withExtra key value)

namespace Graph

/-- The graphs into which such nodes and edges were put one by one. -/
inductive Built : Graph → Prop where
  | empty : Built ∅
  | addNode {g : Graph} {n : Node} (h : Built g) (hn : n.Built) : Built (g.addNode n)
  | addEdge {g g' : Graph} {e : Edge} (h : Built g) (he : e.Built) (hadd : g.addEdge e = .ok g') : Built g'

namespace Built

variable {g : Graph}

theorem isIndexed (h : g.Built) : g.IsIndexed := by
  induction h with
  | empty => exact isIndexed_empty
  | addNode _ _ ih => exact ih.addNode _
  | addEdge _ _ hadd ih => exact ih.addEdge hadd

theorem isApart (h : g.Built) : ∀ n ∈ g.nodeList, n.IsApart := by
  suffices hall : ∀ id n, g.node? id = some n → n.IsApart from
    fun n hn => hall n.id n ((h.isIndexed.mem_nodeList n).mp hn)
  induction h with
  | empty => exact fun id n hn => by cases hn
  | addNode _ hnew ih =>
      intro id n hn
      rcases node?_addNode_cases hn with ⟨-, rfl⟩ | hn
      · exact hnew.isApart
      · exact ih id n hn
  | addEdge _ _ hadd ih =>
      intro id n hn
      rw [(joins_addEdge hadd).node?] at hn
      exact ih id n hn

theorem ofWire?_of_mem (h : g.Built) {n : Node} (hn : n ∈ g.nodeList) :
    Node.ofWire? .named n.toWire = some n.reread := (h.isApart n hn).ofWire?_toWire .named

/-- What a graph that comes back is made of. -/
theorem of_ofJson (h : g.Built) (hfloats : g.KeepsFloats) {g' : Graph}
    (hread : Graph.ofJson g.toJson = .ok g') :
    (∀ id, g'.node? id = (g.node? id).bind fun n => Node.ofWire? .named n.toWire) ∧
      ∀ key, g'.edge? key = (g.edge? key).bind fun e => Edge.ofWire? .named e.toWire := by
  rw [hfloats.ofJson_toJson] at hread
  have hedge : ∀ e ∈ g.edgeList, ∃ d, Edge.ofWire? .named e.toWire = some d ∧ d.key = e.key := by
    intro e he
    obtain ⟨d, hd⟩ := exists_of_ofDocument_written hread e he
    have hrecord := hd
    rw [Edge.ofWire?_toWire] at hrecord
    exact ⟨d, hd, Edge.ofProperties_eq_ok (toOption_eq_some.mp hrecord)⟩
  obtain ⟨g₁, hread₁, hnodes, hedges⟩ := exists_ofDocument_written .graphJson h.isIndexed.toIsSound
    (fun n hn => ⟨_, h.ofWire?_of_mem hn, n.reread_id⟩) hedge
  obtain rfl := Except.ok.inj (hread₁.symm.trans hread)
  exact ⟨hnodes, hedges⟩

/-- **A graph that was built step by step comes back from JSON**, with the same nodes and the same edges,
exactly if no extra property of an edge has a name that the core of the edge owns. Whenever a graph
comes back at all, its nodes are the same. -/
theorem ofJson_toJson_iff (h : g.Built) (hfloats : g.KeepsFloats) :
    ((∃ g', Graph.ofJson g.toJson = .ok g' ∧ g'.Alike g) ↔ ∀ e ∈ g.edgeList, e.IsApart) ∧
      ∀ g', Graph.ofJson g.toJson = .ok g' → ∀ id, Option.Rel Node.Alike (g'.node? id) (g.node? id) := by
  have hsound := h.isIndexed.toIsSound
  have hsame : ∀ n ∈ g.nodeList, ∃ m, Node.ofWire? .named n.toWire = some m ∧ m.Alike n :=
    fun n hn => ⟨_, h.ofWire?_of_mem hn, (h.isApart n hn).reread_alike⟩
  refine ⟨⟨?_, fun hapart => ?_⟩, fun g' hread => ?_⟩
  · rintro ⟨g', hread, hg'⟩ e he
    have hfound := (hsound.mem_edgeList e).mp he
    -- The edge that comes back keeps apart, and it has the same extra properties.
    have hrel := hg'.edges e.key
    rw [(h.of_ofJson hfloats hread).2, hfound, Option.bind_some] at hrel
    generalize hd : Edge.ofWire? .named e.toWire = found at hrel
    cases hrel with
    | some hedge =>
        rw [Edge.ofWire?_toWire] at hd
        exact hedge.isApart (Edge.isApart_of_ofRecord (toOption_eq_some.mp hd))
  · have hedge : ∀ e ∈ g.edgeList, Edge.ofWire? .named e.toWire = some e.reread :=
      fun e he => (hapart e he).ofWire?_toWire .named
    obtain ⟨g', hread, hnodes, hedges⟩ := exists_ofDocument_written .graphJson hsound
      (fun n hn => ⟨_, h.ofWire?_of_mem hn, n.reread_id⟩) (fun e he => ⟨_, hedge e he, e.reread_key⟩)
    exact ⟨g', hfloats.ofJson_toJson.trans hread, alike_of_bind hsound hnodes hedges hsame
      fun e he => ⟨_, hedge e he, (hapart e he).reread_alike⟩⟩
  · exact rel_of_bind hsound (h.of_ofJson hfloats hread).1 hsame

theorem attach (h : g.Built) {e : Edge} (he : e.Built) : (g.attach e).Built := by
  unfold Graph.attach
  split
  · rename_i g' hadd
    exact h.addEdge he hadd
  · exact h

/-- A node with an extra property, and an edge to itself with one that its core does not own. -/
theorem ofJson_toJson_iff_note :
    let n := (Node.ofCore "a" (.module "a" "a")).withExtra "size" (.int (-1))
    let e := (Edge.ofCore "a" "a" (.contains none)).withExtra "note" (.text "x")
    let g := ((∅ : Graph).addNode n).attach e
    ∃ g', Graph.ofJson g.toJson = .ok g' ∧ g'.Alike g ∧ Option.Rel Node.Alike (g'.node? "a") (g.node? "a") := by
  intro n e g
  have hbuilt : g.Built :=
    (empty.addNode ((Node.Built.ofCore "a" (.module "a" "a")).withExtra "size" (.int (-1)))).attach
      ((Edge.Built.ofCore "a" "a" (.contains none)).withExtra "note" (.text "x"))
  have hfloats : g.KeepsFloats :=
    ⟨fun n hn => Properties.keepsFloats_of_toList ((by decide +kernel :
        ∀ n ∈ g.nodeList, ∀ entry ∈ n.extra.toList, entry.2.kindName ≠ "float") n hn),
      fun e he => Properties.keepsFloats_of_toList ((by decide +kernel :
        ∀ e ∈ g.edgeList, ∀ entry ∈ e.extra.toList, entry.2.kindName ≠ "float") e he)⟩
  have hapart : ∀ e ∈ g.edgeList, ∀ key ∈ EdgeCore.keys e.kind, e.extra[key]? = none := by
    decide +kernel
  obtain ⟨hiff, hnodes⟩ := hbuilt.ofJson_toJson_iff hfloats
  obtain ⟨g', hread, hsame⟩ := hiff.mpr hapart
  exact ⟨g', hread, hsame, hnodes g' hread "a"⟩

/-- An extra property of an edge with the name of a field that has no value is read as that field, and
then has the wrong shape. -/
theorem ofJson_toJson_hidden_line :
    let n := Node.ofCore "a" (.module "a" "a")
    let e := (Edge.ofCore "a" "a" (.contains none)).withExtra "line_number" (.text "x")
    let g := ((∅ : Graph).addNode n).attach e
    g.Built ∧ g.KeepsFloats ∧ g.hasEdge e.key = true ∧ ∀ g', Graph.ofJson g.toJson ≠ .ok g' := by
  intro n e g
  have hbuilt : g.Built := (empty.addNode (Node.Built.ofCore "a" (.module "a" "a"))).attach
    ((Edge.Built.ofCore "a" "a" (.contains none)).withExtra "line_number" (.text "x"))
  have hfloats : g.KeepsFloats :=
    ⟨fun n hn => Properties.keepsFloats_of_toList ((by decide +kernel :
        ∀ n ∈ g.nodeList, ∀ entry ∈ n.extra.toList, entry.2.kindName ≠ "float") n hn),
      fun e he => Properties.keepsFloats_of_toList ((by decide +kernel :
        ∀ e ∈ g.edgeList, ∀ entry ∈ e.extra.toList, entry.2.kindName ≠ "float") e he)⟩
  refine ⟨hbuilt, hfloats, by decide +kernel, ?_⟩
  have hnone : (Graph.ofJson g.toJson).toOption.isNone = true := by decide +kernel
  intro g' hread
  rw [hread] at hnone
  cases hnone

end Built

end Graph

end ProgramGraph
