import Mathlib.Tactic.Choose
import ProgramGraph.Graph.Document
import ProgramGraph.Proofs.Delta.Applied
import ProgramGraph.Proofs.Store.Records

set_option autoImplicit false

/-! # Graphs that are written and read again

Both documents of a graph hold the record of every node under its identifier and the record of every
edge. A reader that makes something of each record makes a graph of it, with the same identifiers
and keys (`exists_ofDocument_written`). So a graph comes back as far as its nodes and edges do, and from
the binary encoding every graph does whose extra properties keep apart from the cores
(`ofBytes_toBytes`).
-/

namespace ProgramGraph

open ProgramGraph.Wire

/-! ## The same records -/

/-- The two nodes agree in every field, and in every extra property bit for bit. -/
structure Node.Alike (m n : Node) : Prop where
  id : m.id = n.id
  core : m.core = n.core
  extra : ∀ key : String, m.extra[key]? = n.extra[key]?

/-- The two edges agree in every field, and in every extra property bit for bit. -/
structure Edge.Alike (d e : Edge) : Prop where
  source : d.source = e.source
  target : d.target = e.target
  core : d.core = e.core
  extra : ∀ key : String, d.extra[key]? = e.extra[key]?

theorem Node.IsApart.reread_alike {n : Node} (h : n.IsApart) : n.reread.Alike n :=
  ⟨rfl, rfl, h.getElem?_extra⟩

theorem Edge.IsApart.reread_alike {e : Edge} (h : e.IsApart) : e.reread.Alike e :=
  ⟨rfl, rfl, rfl, e.core.within_fields.getElem?_leftOver h⟩

theorem Node.IsApart.ofWire?_reread {n : Node} (h : n.IsApart) (encoding : Encoding) :
    ofWire? encoding (MsgPack.reread n.toWire) = some n.reread := by
  show (NodeRecord.ofWire? encoding (MsgPack.reread n.record.toWire)).bind _ = _
  rw [NodeRecord.ofWire?_reread, Option.bind_some]
  exact congrArg Except.toOption h.ofRecord_rebuilt

theorem Edge.IsApart.ofWire?_reread {e : Edge} (h : e.IsApart) (encoding : Encoding) :
    ofWire? encoding (MsgPack.reread e.toWire) = some e.reread := by
  show (EdgeRecord.ofWire? encoding (MsgPack.reread e.record.toWire)).bind _ = _
  rw [EdgeRecord.ofWire?_reread, Option.bind_some]
  exact congrArg Except.toOption h.ofRecord_rebuilt

/-- The two graphs have the same nodes and the same edges. -/
structure Graph.Alike (g other : Graph) : Prop where
  nodes : ∀ id, Option.Rel Node.Alike (g.node? id) (other.node? id)
  edges : ∀ key, Option.Rel Edge.Alike (g.edge? key) (other.edge? key)

/-! ## Reading item by item -/

theorem mapM_eq_map {α β : Type} {read : α → Option β} {found : α → β} {items : List α}
    (h : ∀ a ∈ items, read a = some (found a)) : items.mapM read = some (items.map found) := by
  induction items with
  | nil => rfl
  | cons a rest ih =>
      rw [List.mapM_cons, h a List.mem_cons_self, ih fun b hb => h b (List.mem_cons_of_mem a hb)]
      rfl

theorem exists_of_mapM_eq_some {α β : Type} {read : α → Option β} {items : List α} {found : List β}
    (h : items.mapM read = some found) {a : α} (ha : a ∈ items) : ∃ b, read a = some b := by
  induction items generalizing found with
  | nil => cases ha
  | cons first rest ih =>
      rw [List.mapM_cons] at h
      obtain ⟨b, hfirst, h⟩ := Option.bind_eq_some_iff.mp h
      obtain ⟨others, hrest, -⟩ := Option.bind_eq_some_iff.mp h
      rcases List.mem_cons.mp ha with rfl | ha
      · exact ⟨b, hfirst⟩
      · exact ih hrest ha

namespace Graph

/-! ## Documents -/

/-- The document of a graph with its records written in some way. -/
def written (node : Node → Value) (edge : Edge → Value) (g : Graph) : Value :=
  .map
    [(.name "nodes", .map (g.nodes.toList.map fun (id, n) => (Key.name id, node n))),
      (.name "edges", .list (g.edgeList.map edge))]

theorem rereadItems_eq_map (items : List Value) :
    MsgPack.rereadItems items = items.map MsgPack.reread := by
  induction items with
  | nil => rfl
  | cons v rest ih => rw [MsgPack.rereadItems, ih, List.map_cons]

theorem rereadEntries_eq_map (entries : List (Key × Value)) :
    MsgPack.rereadEntries entries = entries.map fun entry => (entry.1, MsgPack.reread entry.2) := by
  induction entries with
  | nil => rfl
  | cons entry rest ih => rw [MsgPack.rereadEntries, ih, List.map_cons]

/-- The document as the binary encoding gives it back. -/
theorem reread_document (g : Graph) :
    MsgPack.reread g.document =
      g.written (fun n => MsgPack.reread n.toWire) (fun e => MsgPack.reread e.toWire) := by
  simp only [document, written, MsgPack.reread, MsgPack.rereadEntries, rereadItems_eq_map,
    rereadEntries_eq_map, List.map_map]
  rfl

section Reading

variable {encoding : Encoding} {node : Node → Value} {edge : Edge → Value} {g : Graph}

theorem parts?_written :
    parts? encoding (g.written node edge) =
      (g.nodes.toList.mapM fun entry => (Node.ofWire? encoding (node entry.2)).map (entry.1, ·)).bind
        fun entries => (g.edgeList.mapM fun e => Edge.ofWire? encoding (edge e)).bind fun edges =>
          some ((entries.foldl (fun acc (key, n) => acc.insert key n) (∅ : Std.TreeMap String Node)).values,
            edges) := by
  have hmembers : (g.written node edge).members? [["nodes"], ["edges"]] =
      some [("nodes", .map (g.nodes.toList.map fun (id, n) => (Key.name id, node n))),
        ("edges", .list (g.edgeList.map edge))] := rfl
  rw [parts?, hmembers]
  show (((g.nodes.toList.map _).mapM (Value.named? _)).bind fun entries =>
    ((g.edgeList.map edge).mapM (Edge.ofWire? encoding)).bind _) = _
  rw [List.mapM_map, List.mapM_map]
  rfl

/-- Something is made of each node, and entered under the old identifier. -/
def foundNodes (g : Graph) (found : Node → Node) : Std.TreeMap String Node :=
  (g.nodes.toList.map fun entry => (entry.1, found entry.2)).foldl
    (fun acc (key, n) => acc.insert key n) ∅

theorem getElem?_foundNodes (g : Graph) (found : Node → Node) (id : String) :
    (g.foundNodes found)[id]? = (g.node? id).map found := by
  have hdistinct : (g.nodes.toList.map fun entry => (entry.1, found entry.2)).Pairwise
      fun a b => a.1 ≠ b.1 := List.pairwise_map.mpr (distinct_toList g.nodes)
  refine Option.ext fun n => ?_
  rw [foundNodes, getElem?_entered hdistinct, Option.map_eq_some_iff]
  constructor
  · rintro (hmem | ⟨-, hnone⟩)
    · obtain ⟨entry, hentry, heq⟩ := List.mem_map.mp hmem
      obtain ⟨rfl, rfl⟩ := Prod.mk.inj heq
      exact ⟨entry.2, Std.TreeMap.mem_toList_iff_getElem?_eq_some.mp hentry, rfl⟩
    · simp at hnone
  · rintro ⟨n, hn, rfl⟩
    exact .inl (List.mem_map.mpr ⟨(id, n), Std.TreeMap.mem_toList_iff_getElem?_eq_some.mpr hn, rfl⟩)

/-- The nodes of a map, put into the empty graph. -/
theorem node?_addNodes_values {m : Std.TreeMap String Node}
    (h : ∀ (id : String) (n : Node), m[id]? = some n → n.id = id) (id : String) :
    ((∅ : Graph).addNodes m.values).node? id = m[id]? := by
  have hlisted := node?_addNodes_listed ∅ (mem_values_iff Node.id fun {id n} => h id n) (fun {id n} => h id n) id
  exact hlisted.trans (Option.or_none)

/-- Something with the same key is made of each edge, and all of it is put into a graph with the old
identifiers and without edges. -/
theorem addEdges_found (h : g.IsSound) {found : Edge → Edge}
    (hkey : ∀ e ∈ g.edgeList, (found e).key = e.key) {base : Graph}
    (hbase : ∀ id, base.hasNode id = g.hasNode id) (hbare : ∀ key, base.edge? key = none) :
    ∃ g', base.addEdges (g.edgeList.map found) = .ok g' ∧ (∀ id, g'.node? id = base.node? id) ∧
      ∀ key, g'.edge? key = (g.edge? key).map found := by
  have hends : ∀ d ∈ g.edgeList.map found,
      base.hasNode d.source = true ∧ base.hasNode d.target = true := by
    intro d hd
    obtain ⟨e, he, rfl⟩ := List.mem_map.mp hd
    have hthere := (h.mem_map_key e.key).mp (List.mem_map_of_mem he)
    have hsource : (found e).source = e.source := congrArg EdgeKey.source (hkey e he)
    have htarget : (found e).target = e.target := congrArg EdgeKey.target (hkey e he)
    rw [hsource, htarget, hbase, hbase]
    exact ⟨h.source hthere, h.target hthere⟩
  -- Since keys stay, what is made of an edge is found where the edge was.
  have hlisted : ∀ d, d ∈ g.edgeList.map found ↔ (g.edge? d.key).map found = some d := by
    intro d
    rw [List.mem_map, Option.map_eq_some_iff]
    constructor
    · rintro ⟨e, he, rfl⟩
      exact ⟨e, by rw [hkey e he, (h.mem_edgeList e).mp he], rfl⟩
    · rintro ⟨e, he, rfl⟩
      exact ⟨e, (h.mem_edgeList e).mpr (h.key_eq he ▸ he), rfl⟩
  have hkeys : ∀ {key d}, (g.edge? key).map found = some d → d.key = key := by
    intro key d hd
    obtain ⟨e, he, rfl⟩ := Option.map_eq_some_iff.mp hd
    obtain rfl := h.key_eq he
    exact hkey e ((h.mem_edgeList e).mpr he)
  refine ⟨_, addEdges_eq hends, node?_attachAll base _, fun key => ?_⟩
  rw [edge?_attachAll_listed hends hlisted hkeys, hbare, Option.or_none]

/-- **Reading a written graph.** If every record is read as a node with the same identifier, or as an
edge with the same key, then the document is read as the graph of these nodes and edges. -/
theorem exists_ofDocument_written (what : Encoded) (h : g.IsSound)
    (hnode : ∀ n ∈ g.nodeList, ∃ m, Node.ofWire? encoding (node n) = some m ∧ m.id = n.id)
    (hedge : ∀ e ∈ g.edgeList, ∃ d, Edge.ofWire? encoding (edge e) = some d ∧ d.key = e.key) :
    ∃ g', ofDocument encoding what (some (g.written node edge)) = .ok g' ∧
      (∀ id, g'.node? id = (g.node? id).bind fun n => Node.ofWire? encoding (node n)) ∧
      ∀ key, g'.edge? key = (g.edge? key).bind fun e => Edge.ofWire? encoding (edge e) := by
  -- All readings are chosen at once, so that the document is read by functions.
  choose! foundNode hfoundNode hid using hnode
  choose! foundEdge hfoundEdge hkey using hedge
  have hlisted : ∀ {id : String} {n : Node}, g.node? id = some n → n ∈ g.nodeList ∧ n.id = id :=
    fun hn => ⟨(h.mem_nodeList _).mpr ((h.id_eq hn).symm ▸ hn), h.id_eq hn⟩
  have hentries : (g.nodes.toList.mapM fun entry =>
      (Node.ofWire? encoding (node entry.2)).map (entry.1, ·)) =
        some (g.nodes.toList.map fun entry => (entry.1, foundNode entry.2)) := by
    refine mapM_eq_map fun entry hentry => ?_
    rw [hfoundNode _ (hlisted (Std.TreeMap.mem_toList_iff_getElem?_eq_some.mp hentry)).1, Option.map_some]
  have hnodes : ∀ id, ((∅ : Graph).addNodes (g.foundNodes foundNode).values).node? id =
      (g.node? id).map foundNode := by
    refine fun id => (node?_addNodes_values (fun id n hn => ?_) id).trans (g.getElem?_foundNodes _ id)
    rw [getElem?_foundNodes] at hn
    obtain ⟨old, hold, rfl⟩ := Option.map_eq_some_iff.mp hn
    rw [hid _ (hlisted hold).1, (hlisted hold).2]
  obtain ⟨g', hadd, hkept, hedges⟩ := addEdges_found h hkey
    (fun id => by rw [hasNode_eq, hnodes, Option.isSome_map, ← hasNode_eq])
    (edge?_addNodes ∅ _)
  refine ⟨g', ?_, fun id => ?_, fun key => ?_⟩
  · rw [ofDocument, Option.bind_some, parts?_written, hentries, mapM_eq_map hfoundEdge]
    exact hadd
  · rw [hkept, hnodes]
    cases hn : g.node? id with
    | none => rfl
    | some n => rw [Option.map_some, Option.bind_some, hfoundNode n (hlisted hn).1]
  · rw [hedges]
    cases he : g.edge? key with
    | none => rfl
    | some e =>
        obtain rfl := h.key_eq he
        rw [Option.map_some, Option.bind_some, hfoundEdge e ((h.mem_edgeList e).mpr he)]

/-- Whoever reads the document has read every record. -/
theorem exists_of_ofDocument_written {what : Encoded} {g' : Graph}
    (h : ofDocument encoding what (some (g.written node edge)) = .ok g') :
    ∀ e ∈ g.edgeList, ∃ d, Edge.ofWire? encoding (edge e) = some d := by
  rw [ofDocument, Option.bind_some, parts?_written] at h
  intro e he
  cases hedges : g.edgeList.mapM fun e => Edge.ofWire? encoding (edge e) with
  | none =>
      rw [hedges] at h
      simp at h
  | some found => exact exists_of_mapM_eq_some hedges he

/-- Node records that are read the same give the same nodes. -/
theorem rel_of_bind {g' : Graph} {readNode : Node → Option Node} (h : g.IsSound)
    (hnodes : ∀ id, g'.node? id = (g.node? id).bind readNode)
    (hnode : ∀ n ∈ g.nodeList, ∃ m, readNode n = some m ∧ m.Alike n) (id : String) :
    Option.Rel Node.Alike (g'.node? id) (g.node? id) := by
  rw [hnodes]
  cases hn : g.node? id with
  | none => exact .none
  | some n =>
      obtain rfl := h.id_eq hn
      obtain ⟨m, hm, hsame⟩ := hnode n ((h.mem_nodeList n).mpr hn)
      rw [Option.bind_some, hm]
      exact .some hsame

/-- Records that are read the same give the same graph. -/
theorem alike_of_bind {g' : Graph} {readNode : Node → Option Node} {readEdge : Edge → Option Edge}
    (h : g.IsSound) (hnodes : ∀ id, g'.node? id = (g.node? id).bind readNode)
    (hedges : ∀ key, g'.edge? key = (g.edge? key).bind readEdge)
    (hnode : ∀ n ∈ g.nodeList, ∃ m, readNode n = some m ∧ m.Alike n)
    (hedge : ∀ e ∈ g.edgeList, ∃ d, readEdge e = some d ∧ d.Alike e) : g'.Alike g where
  nodes := rel_of_bind h hnodes hnode
  edges key := by
    rw [hedges]
    cases he : g.edge? key with
    | none => exact .none
    | some e =>
        obtain rfl := h.key_eq he
        obtain ⟨d, hd, hsame⟩ := hedge e ((h.mem_edgeList e).mpr he)
        rw [Option.bind_some, hd]
        exact .some hsame

end Reading

/-! ## The binary encoding -/

theorem Fits.fits {g : Graph} (h : g.Fits) (hsound : g.IsSound) (hnodes : g.nodeList.length < 2 ^ 32)
    (hedges : g.edgeList.length < 2 ^ 32) : MsgPack.Fits MsgPack.maxDepth g.document := by
  rw [nodeList, values_eq_map, List.length_map] at hnodes
  have hfits : ∀ entry ∈ g.nodes.toList, entry.2.id = entry.1 ∧ entry.2.Fits := by
    intro entry hentry
    have hn : g.node? entry.1 = some entry.2 := Std.TreeMap.mem_toList_iff_getElem?_eq_some.mp hentry
    have hid := hsound.id_eq hn
    exact ⟨hid, h.nodes _ ((hsound.mem_nodeList _).mpr (hid.symm ▸ hn))⟩
  have hnodeMap : MsgPack.Fits (1021 + 1)
      (.map (g.nodes.toList.map fun (id, n) => (Key.name id, n.toWire))) := by
    refine .map (by simpa using hnodes) (fun entry hentry => ?_) fun entry hentry => ?_
    · obtain ⟨old, hold, rfl⟩ := List.mem_map.mp hentry
      obtain ⟨hid, hfit⟩ := hfits old hold
      exact ⟨old.1, rfl, hid ▸ hfit.id⟩
    · obtain ⟨old, hold, rfl⟩ := List.mem_map.mp hentry
      exact (hfits old hold).2.fits 1018
  have hedgeList : MsgPack.Fits (1021 + 1) (.list (g.edgeList.map Edge.toWire)) := by
    refine .list (by simpa using hedges) fun v hv => ?_
    obtain ⟨e, he, rfl⟩ := List.mem_map.mp hv
    exact (h.edges e he).fits 1018
  show MsgPack.Fits (1022 + 1) g.document
  refine .map (by simp) (fun entry hentry => ?_) fun entry hentry => ?_
  · simp only [List.mem_cons, List.not_mem_nil, or_false] at hentry
    rcases hentry with rfl | rfl <;> exact ⟨_, rfl, by decide +kernel⟩
  · simp only [List.mem_cons, List.not_mem_nil, or_false] at hentry
    rcases hentry with rfl | rfl
    · exact hnodeMap
    · exact hedgeList

/-- **A graph comes back from its bytes** with the same nodes and the same edges, if no extra property
has a name that a core owns and nothing is longer than the longest forms of the encoding. -/
theorem Reachable.ofBytes_toBytes {g : Graph} (h : g.Reachable) (hnodes : ∀ n ∈ g.nodeList, n.IsApart)
    (hedges : ∀ e ∈ g.edgeList, e.IsApart) (hfits : g.Fits)
    (hcounts : g.nodeList.length < 2 ^ 32 ∧ g.edgeList.length < 2 ^ 32) :
    ∃ g', Graph.ofBytes g.toBytes = .ok g' ∧ g'.Alike g := by
  have hsound := h.isIndexed.toIsSound
  have hnode : ∀ n ∈ g.nodeList, Node.ofWire? .positional (MsgPack.reread n.toWire) = some n.reread :=
    fun n hn => (hnodes n hn).ofWire?_reread .positional
  have hedge : ∀ e ∈ g.edgeList, Edge.ofWire? .positional (MsgPack.reread e.toWire) = some e.reread :=
    fun e he => (hedges e he).ofWire?_reread .positional
  obtain ⟨g', hread, hnodeAt, hedgeAt⟩ := exists_ofDocument_written .graphBytes hsound
    (fun n hn => ⟨_, hnode n hn, n.reread_id⟩) (fun e he => ⟨_, hedge e he, e.reread_key⟩)
  refine ⟨g', ?_, alike_of_bind hsound hnodeAt hedgeAt
    (fun n hn => ⟨_, hnode n hn, (hnodes n hn).reread_alike⟩)
    fun e he => ⟨_, hedge e he, (hedges e he).reread_alike⟩⟩
  show ofDocument .positional .graphBytes (MsgPack.decode? (MsgPack.encode g.document)) = _
  rw [MsgPack.decode?_encode (hfits.fits hsound hcounts.1 hcounts.2), reread_document]
  exact hread

/-- Numbers of every sign, an infinity, an empty list and an edge to itself. -/
theorem Reachable.ofBytes_toBytes_infinity :
    let n := ((((Node.ofCore "a" (.module "a" "a")).withExtra "low" (.int (-129))).withExtra "high"
      (.int 65536)).withExtra "far" (.float (.ofFloat (1.0 / 0.0)))).withExtra "tags" (.texts [])
    let g := ((∅ : Graph).addNode n).attach ((Edge.ofCore "a" "a" (.plain .calls)).withExtra "note" .null)
    ∃ g', Graph.ofBytes g.toBytes = .ok g' ∧ g'.Alike g ∧
      (g'.node? "a").map (fun m => m.extra.toList.length) = some 4 := by
  intro n g
  have hreach : g.Reachable := (Reachable.empty.addNode n).attach _
  have hnodes : ∀ n ∈ g.nodeList, ∀ key ∈ NodeCore.keys n.kind, n.extra[key]? = none := by
    decide +kernel
  have hedges : ∀ e ∈ g.edgeList, ∀ key ∈ EdgeCore.keys e.kind, e.extra[key]? = none := by
    decide +kernel
  obtain ⟨g', hread, hsame⟩ := hreach.ofBytes_toBytes hnodes hedges (by decide +kernel)
    (by decide +kernel)
  refine ⟨g', hread, hsame, ?_⟩
  have hvalue : (Graph.ofBytes g.toBytes).toOption.map (fun g' =>
      (g'.node? "a").map fun m => m.extra.toList.length) = some (some 4) := by decide +kernel
  rw [hread] at hvalue
  exact Option.some.inj hvalue

end Graph

end ProgramGraph
