import Mathlib.Data.List.Basic
import ProgramGraph.Proofs.Map
import ProgramGraph.Proofs.Store.Chunk
import ProgramGraph.Proofs.Store.Content
import ProgramGraph.Proofs.Store.Records
import ProgramGraph.Proofs.Store.Table

set_option autoImplicit false

/-! # The content of a table store

Rows hold a content if each row decodes to what the content has in its place. Every operation on
rows keeps step with `Content.step`, and a table store over rows shows what they hold.
-/

namespace ProgramGraph

namespace Rows

/-- The rows decode to the content. -/
structure Holds (rows : Rows) (c : Content) : Prop where
  node : ∀ id, rows.nodes[id]?.map (NodeRow.toNode id) = (c.node? id).map .ok
  edge : ∀ key, rows.edges[key]?.map (EdgeRow.toEdge key) = (c.edge? key).map .ok

variable {rows : Rows} {c : Content}

theorem holds_empty : empty.Holds ∅ := ⟨fun _ => rfl, fun _ => rfl⟩

/-- What can be read from rows. -/
def content (rows : Rows) : Content where
  node? id := rows.nodes[id]?.bind fun row => (row.toNode id).toOption
  edge? key := rows.edges[key]?.bind fun row => (row.toEdge key).toOption
  id_eq := by
    intro id n h
    obtain ⟨row, -, hread⟩ := Option.bind_eq_some_iff.mp h
    exact (NodeRow.toNode_eq_ok (toOption_eq_some.mp hread)).1
  key_eq := by
    intro key e h
    obtain ⟨row, -, hread⟩ := Option.bind_eq_some_iff.mp h
    exact EdgeRow.toEdge_eq_ok (toOption_eq_some.mp hread)

/-- Rows that decode hold what can be read from them. -/
theorem Decodes.holds_content (h : rows.Decodes) : rows.Holds rows.content where
  node id := by
    show _ = Option.map _ (rows.nodes[id]?.bind _)
    cases hrow : rows.nodes[id]? with
    | none => rfl
    | some row =>
        obtain ⟨n, hn⟩ := h.node id row hrow
        rw [Option.bind_some, Option.map_some, hn]
        rfl
  edge key := by
    show _ = Option.map _ (rows.edges[key]?.bind _)
    cases hrow : rows.edges[key]? with
    | none => rfl
    | some row =>
        obtain ⟨e, he⟩ := h.edge key row hrow
        rw [Option.bind_some, Option.map_some, he]
        rfl

/-! ## Operations -/

theorem Holds.putNode (h : rows.Holds c) {n : Node} (hapart : n.IsApart)
    (hfloats : n.extra.KeepsFloats) : (rows.putNode n).Holds (c.putNode n.reread) where
  node id := by
    show ((rows.nodes.insert n.id (.ofNode n))[id]?).map _ = Option.map _ (if id = n.id then _ else _)
    rw [getElem?_inserted]
    split
    · rename_i hid
      rw [hid, Option.map_some, hapart.toNode_ofNode hfloats]
      rfl
    · exact h.node id
  edge := h.edge

theorem Holds.putEdge (h : rows.Holds c) {e : Edge} (hapart : e.IsApart)
    (hfloats : e.extra.KeepsFloats) : (rows.putEdge e).Holds (c.putEdge false e.reread) where
  node := h.node
  edge key := by
    show ((rows.edges.insertIfNew e.key _)[key]?).map _ = Option.map _ (if key = e.key then _ else _)
    rw [getElem?_insertedIfNew]
    split
    · rename_i hkey
      subst hkey
      -- the row that is there stays, and so does the edge
      have hold := h.edge e.key
      cases hrow : rows.edges[e.key]? with
      | none =>
          have hnone : c.edge? e.key = none := by simpa [hrow] using hold.symm
          simp [hnone, hapart.toEdge_print hfloats]
      | some row =>
          rw [hrow] at hold
          cases hedge : c.edge? e.key with
          | none => simp [hedge] at hold
          | some old => simpa [hedge] using hold
    · exact h.edge key

theorem Holds.drop (h : rows.Holds c) {rows' : Rows} {nodes : String → Bool} {edges : EdgeKey → Bool}
    (hnodes : ∀ id, rows'.nodes[id]? = if nodes id then none else rows.nodes[id]?)
    (hedges : ∀ key, rows'.edges[key]? = if edges key then none else rows.edges[key]?) :
    rows'.Holds (c.drop nodes edges) where
  node id := by
    show _ = Option.map _ (if nodes id then none else c.node? id)
    rw [hnodes]
    split
    · rfl
    · exact h.node id
  edge key := by
    show _ = Option.map _ (if edges key then none else c.edge? key)
    rw [hedges]
    split
    · rfl
    · exact h.edge key

theorem getElem?_removeEdges (rows : Rows) (selected : EdgeKey → Bool) (key : EdgeKey) :
    (rows.removeEdges selected).edges[key]? = if selected key then none else rows.edges[key]? := by
  show (rows.edges.filter fun key _ => !selected key)[key]? = _
  rw [Std.TreeMap.getElem?_filter']
  cases rows.edges[key]? <;> cases selected key <;> rfl

theorem Holds.hasNode_eq (h : rows.Holds c) (id : String) :
    c.hasNode id = rows.nodes[id]?.isSome := by
  have := congrArg Option.isSome (h.node id)
  simpa [Content.hasNode] using this.symm

theorem Holds.hasEdge_eq (h : rows.Holds c) (key : EdgeKey) :
    c.hasEdge key = rows.edges[key]?.isSome := by
  have := congrArg Option.isSome (h.edge key)
  simpa [Content.hasEdge] using this.symm

/-- Edges that are not there need not be removed. -/
theorem Holds.removed_eq (h : rows.Holds c) (selected : EdgeKey → Bool) (key : EdgeKey) :
    (if selected key then none else rows.edges[key]?) =
      if c.hasEdge key && selected key then none else rows.edges[key]? := by
  rw [h.hasEdge_eq]
  cases rows.edges[key]? <;> cases selected key <;> rfl

theorem Holds.removeNode (h : rows.Holds c) (policy : Policy) (hcascades : policy.cascades = true)
    (id : String) : (rows.removeNode id).Holds (c.step policy c (.deleteNode id)) := by
  refine h.drop (fun i => ?_) fun key => ?_
  · show (rows.nodes.erase id)[i]? = _
    rw [getElem?_erased]
    simp
  · rw [hcascades, Bool.true_and]
    exact (getElem?_removeEdges rows _ key).trans
      (h.removed_eq (fun key => key.source = id || key.target = id) key)

theorem Holds.removeBetween (h : rows.Holds c) (policy : Policy) (source target : String)
    (kind : Option EdgeKind) :
    (rows.removeBetween source target kind).Holds (c.step policy c (.deleteEdge source target kind)) := by
  cases kind with
  | none =>
      refine h.drop (fun _ => rfl) fun key => ?_
      exact (getElem?_removeEdges rows _ key).trans
        (h.removed_eq (fun key => key.source = source && key.target = target) key)
  | some k =>
      refine h.drop (fun _ => rfl) fun key => ?_
      show (rows.edges.erase ⟨source, target, k⟩)[key]? = _
      rw [getElem?_erased]
      simp

theorem Holds.clear (h : rows.Holds c) (policy : Policy) :
    rows.clear.Holds (c.step policy c .clear) := by
  refine h.drop (fun id => ?_) fun key => ?_
  · rw [h.hasNode_eq]
    cases rows.nodes[id]? <;> rfl
  · rw [h.hasEdge_eq]
    cases rows.edges[key]? <;> rfl

theorem Holds.putNodes (h : rows.Holds c) {nodes : List Node}
    (hnodes : ∀ n ∈ nodes, n.IsApart ∧ n.extra.KeepsFloats) :
    (nodes.foldl Rows.putNode rows).Holds (nodes.foldl (fun acc n => acc.putNode n.reread) c) := by
  induction nodes generalizing rows c with
  | nil => exact h
  | cons n rest ih =>
      obtain ⟨hapart, hfloats⟩ := hnodes n List.mem_cons_self
      exact ih (h.putNode hapart hfloats) fun m hm => hnodes m (List.mem_cons_of_mem _ hm)

theorem Holds.putEdges (h : rows.Holds c) {edges : List Edge}
    (hedges : ∀ e ∈ edges, e.IsApart ∧ e.extra.KeepsFloats) :
    (edges.foldl Rows.putEdge rows).Holds
      (edges.foldl (fun acc e => acc.putEdge false e.reread) c) := by
  induction edges generalizing rows c with
  | nil => exact h
  | cons e rest ih =>
      obtain ⟨hapart, hfloats⟩ := hedges e List.mem_cons_self
      exact ih (h.putEdge hapart hfloats) fun d hd => hedges d (List.mem_cons_of_mem _ hd)

end Rows

/-! ## Table stores -/

/-- The records that an operation saves can be read again from rows. -/
structure Store.Operation.SuitsRows (op : Store.Operation) : Prop where
  nodes : ∀ n ∈ op.savedNodes, n.IsApart ∧ n.extra.KeepsFloats
  edges : ∀ e ∈ op.savedEdges, e.IsApart ∧ e.extra.KeepsFloats

theorem Statement.write_eq {state : DatabaseState} (h : state.trouble = none) (s : Statement)
    (found : Bool) : s.write state found = .ok () := by
  simp [write, read, h]

namespace Table

variable {t : Table}

/-- The policy of a table store. -/
def policy : Policy := ⟨false, true, false⟩

/-- The rows after an operation. -/
def rowsAfter (rows : Rows) : Store.Operation → Rows
  | .saveNode n => rows.putNode n
  | .saveEdge e => rows.putEdge e
  | .saveGraph g _ => g.edgeList.foldl Rows.putEdge (g.nodeList.foldl Rows.putNode rows)
  | .deleteNode id => rows.removeNode id
  | .deleteEdge source target kind => rows.removeBetween source target kind
  | .clear => rows.clear

theorem saveNodes_eq (hstate : t.state.trouble = none) (nodes : List Node) :
    nodes.foldlM saveNode t = .ok (t.change fun rows => nodes.foldl Rows.putNode rows) := by
  induction nodes generalizing t with
  | nil => rfl
  | cons n rest ih =>
      have hsave : t.saveNode n = .ok (t.change fun rows => rows.putNode n) := by
        rw [saveNode, Statement.write_eq hstate]
        rfl
      rw [List.foldlM_cons, hsave]
      exact ih (t := t.change fun rows => rows.putNode n) hstate

theorem saveEdges_eq (hstate : t.state.trouble = none) (edges : List Edge) :
    edges.foldlM saveEdge t = .ok (t.change fun rows => edges.foldl Rows.putEdge rows) := by
  induction edges generalizing t with
  | nil => rfl
  | cons e rest ih =>
      have hsave : t.saveEdge e = .ok (t.change fun rows => rows.putEdge e) := by
        rw [saveEdge, Statement.write_eq hstate]
        rfl
      rw [List.foldlM_cons, hsave]
      exact ih (t := t.change fun rows => rows.putEdge e) hstate

/-- A graph is saved in pieces, which makes no difference. -/
theorem saveGraph_eq (hstate : t.state.trouble = none) (g : Graph) (batchSize : Option UInt64) :
    t.saveGraph g batchSize = .ok (t.change fun rows =>
      g.edgeList.foldl Rows.putEdge (g.nodeList.foldl Rows.putNode rows)) := by
  rw [saveGraph_eq_foldlM, saveNodes_eq hstate]
  exact saveEdges_eq (t := t.change fun rows => g.nodeList.foldl Rows.putNode rows) hstate _

/-- An operation on a database without trouble succeeds. -/
theorem perform_eq (hstate : t.state.trouble = none) (op : Store.Operation) :
    (Store.table t).perform op = .ok (.table (t.change fun rows => rowsAfter rows op)) := by
  cases op with
  | saveNode n =>
      show (t.saveNode n).map Store.table = _
      rw [saveNode, Statement.write_eq hstate]
      rfl
  | saveEdge e =>
      show (t.saveEdge e).map Store.table = _
      rw [saveEdge, Statement.write_eq hstate]
      rfl
  | saveGraph g options =>
      show (t.saveGraph g options.batchSize).map Store.table = _
      rw [saveGraph_eq hstate]
      rfl
  | deleteNode id =>
      show (t.deleteNode id).map Store.table = _
      rw [deleteNode, Statement.write_eq hstate, Statement.write_eq hstate]
      rfl
  | deleteEdge source target kind =>
      show (t.deleteEdge source target kind).map Store.table = _
      rw [deleteEdge, Statement.write_eq hstate]
      rfl
  | clear =>
      show t.clear.map Store.table = _
      rw [clear, Statement.write_eq hstate]
      rfl

section

variable {t' : Table} {s' : Store}

/-- What a statement allows is made on the rows. -/
theorem eq_change_of_allowed {allowed : Outcome Unit} {f : Rows → Rows}
    (h : (allowed >>= fun _ => pure (t.change f)) = Except.ok t') : t' = t.change f := by
  obtain ⟨_, -, h⟩ := bind_eq_ok.mp h
  exact (Except.ok.inj h).symm

/-- Records that are saved one by one. -/
theorem eq_change_of_foldlM {α : Type} {save : Table → α → Outcome Table} {put : Rows → α → Rows}
    (hsave : ∀ {t t' a}, save t a = .ok t' → t' = t.change fun rows => put rows a) {items : List α}
    (h : items.foldlM save t = .ok t') : t' = t.change fun rows => items.foldl put rows := by
  induction items generalizing t with
  | nil => exact (Except.ok.inj h).symm
  | cons a rest ih =>
      rw [List.foldlM_cons] at h
      obtain ⟨t₁, hfirst, hrest⟩ := bind_eq_ok.mp h
      obtain rfl := hsave hfirst
      exact ih hrest

theorem eq_change_of_saveGraph {g : Graph} {batchSize : Option UInt64} (h : t.saveGraph g batchSize = .ok t') :
    t' = t.change fun rows => g.edgeList.foldl Rows.putEdge (g.nodeList.foldl Rows.putNode rows) := by
  rw [saveGraph_eq_foldlM] at h
  obtain ⟨t₁, hnodes, hedges⟩ := bind_eq_ok.mp h
  obtain rfl := eq_change_of_foldlM eq_change_of_allowed hnodes
  exact eq_change_of_foldlM eq_change_of_allowed hedges

theorem eq_change_of_deleteNode {id : String} (h : t.deleteNode id = .ok t') :
    t' = t.change fun rows => rows.removeNode id := by
  obtain ⟨_, -, h⟩ := bind_eq_ok.mp h
  exact eq_change_of_allowed h

/-- **An operation that succeeds** changes the rows, whatever the database is like. -/
theorem eq_of_perform {op : Store.Operation} (h : (Store.table t).perform op = .ok s') :
    s' = .table (t.change fun rows => rowsAfter rows op) := by
  have lift : ∀ {result : Outcome Table} {f : Rows → Rows}, (∀ {t'}, result = .ok t' → t' = t.change f) →
      result.map Store.table = .ok s' → s' = .table (t.change f) := by
    intro result f hresult hmap
    obtain ⟨t', ht', rfl⟩ := map_eq_ok.mp hmap
    rw [hresult ht']
  cases op with
  | saveNode n => exact lift eq_change_of_allowed h
  | saveEdge e => exact lift eq_change_of_allowed h
  | saveGraph g options => exact lift eq_change_of_saveGraph h
  | deleteNode id => exact lift eq_change_of_deleteNode h
  | deleteEdge source target kind => exact lift eq_change_of_allowed h
  | clear => exact lift eq_change_of_allowed h

/-- So do operations one after the other. -/
theorem eq_of_performAll {ops : List Store.Operation} (h : ops.foldlM Store.perform (.table t) = .ok s') :
    s' = .table (t.change fun rows => ops.foldl rowsAfter rows) := by
  induction ops generalizing t with
  | nil => exact (Except.ok.inj h).symm
  | cons op rest ih =>
      rw [List.foldlM_cons] at h
      obtain ⟨s₁, hfirst, hrest⟩ := bind_eq_ok.mp h
      obtain rfl := eq_of_perform hfirst
      exact ih hrest

end

/-- **Every operation keeps step with the content.** -/
theorem holds_rowsAfter {rows : Rows} {c : Content} (h : rows.Holds c) {op : Store.Operation}
    (hop : op.SuitsRows) : (rowsAfter rows op).Holds (c.step policy c op) := by
  cases op with
  | saveNode n =>
      obtain ⟨hapart, hfloats⟩ := hop.nodes n (List.mem_singleton_self n)
      exact h.putNode hapart hfloats
  | saveEdge e =>
      obtain ⟨hapart, hfloats⟩ := hop.edges e (List.mem_singleton_self e)
      exact h.putEdge hapart hfloats
  | saveGraph g options => exact (h.putNodes hop.nodes).putEdges hop.edges
  | deleteNode id => exact h.removeNode policy rfl id
  | deleteEdge source target kind => exact h.removeBetween policy source target kind
  | clear => exact h.clear policy

end Table

/-! ## Reading rows -/

namespace Rows.Holds

variable {rows : Rows} {c : Content}

theorem toNode_eq (h : rows.Holds c) {id : String} {row : NodeRow}
    (hrow : rows.nodes[id]? = some row) : ∃ n, c.node? id = some n ∧ row.toNode id = .ok n := by
  have hnode := h.node id
  rw [hrow] at hnode
  cases hn : c.node? id with
  | none => simp [hn] at hnode
  | some n => exact ⟨n, rfl, by simpa [hn] using hnode⟩

theorem toEdge_eq (h : rows.Holds c) {key : EdgeKey} {row : EdgeRow}
    (hrow : rows.edges[key]? = some row) : ∃ e, c.edge? key = some e ∧ row.toEdge key = .ok e := by
  have hedge := h.edge key
  rw [hrow] at hedge
  cases he : c.edge? key with
  | none => simp [he] at hedge
  | some e => exact ⟨e, rfl, by simpa [he] using hedge⟩

/-- A node is stored just if the content has it. -/
theorem holdsNode_iff (h : rows.Holds c) {n : Node} : rows.HoldsNode n ↔ c.node? n.id = some n := by
  constructor
  · rintro ⟨row, hrow, hread⟩
    obtain ⟨m, hm, hread'⟩ := h.toNode_eq hrow
    rw [hm, Except.ok.inj (hread.symm.trans hread')]
  · intro hn
    have hnode := h.node n.id
    rw [hn] at hnode
    exact Option.map_eq_some_iff.mp hnode

/-- An edge is stored just if the content has it. -/
theorem holdsEdge_iff (h : rows.Holds c) {e : Edge} : rows.HoldsEdge e ↔ c.edge? e.key = some e := by
  constructor
  · rintro ⟨row, hrow, hread⟩
    obtain ⟨d, hd, hread'⟩ := h.toEdge_eq hrow
    rw [hd, Except.ok.inj (hread.symm.trans hread')]
  · intro he
    have hedge := h.edge e.key
    rw [he] at hedge
    exact Option.map_eq_some_iff.mp hedge

/-- Rows that hold a content decode. -/
theorem decodes (h : rows.Holds c) : rows.Decodes where
  node _ _ hrow := by
    obtain ⟨n, -, hn⟩ := h.toNode_eq hrow
    exact ⟨n, hn⟩
  edge _ _ hrow := by
    obtain ⟨e, -, he⟩ := h.toEdge_eq hrow
    exact ⟨e, he⟩

theorem node?_eq (h : rows.Holds c) (id : String) : rows.node? id = .ok (c.node? id) := by
  unfold Rows.node?
  cases hrow : rows.nodes[id]? with
  | none =>
      have hnone : c.node? id = none := by simpa [hrow] using (h.node id).symm
      rw [hnone]
  | some row =>
      obtain ⟨n, hn, hread⟩ := h.toNode_eq hrow
      rw [hn]
      show (row.toNode id).map some = _
      rw [hread]
      rfl

theorem ascending_nodeIds (rows : Rows) (kind : Option NodeKind) :
    ((rows.nodeRows kind).map Prod.fst).Pairwise (· < ·) :=
  List.pairwise_map.mpr (rows.pairwise_nodeRows kind)

/-- The rows of a kind are those of the nodes of the kind. -/
theorem enumerates_nodeIds (h : rows.Holds c) (kind : Option NodeKind) :
    Enumerates (c.HasNodeOf kind) ((rows.nodeRows kind).map Prod.fst) where
  nodup := (ascending_nodeIds rows kind).imp fun hlt => by
    rintro rfl
    exact String.lt_irrefl _ hlt
  mem_iff id := by
    simp only [List.mem_map, Prod.exists, exists_and_right, exists_eq_right, mem_nodeRows]
    constructor
    · rintro ⟨row, hrow, hkind⟩
      obtain ⟨n, hn, hread⟩ := h.toNode_eq hrow
      exact ⟨n, hn, (NodeRow.toNode_eq_ok hread).2 ▸ hkind⟩
    · rintro ⟨n, hn, hkind⟩
      cases hrow : rows.nodes[id]? with
      | none => simpa [hrow, hn] using h.node id
      | some row =>
          obtain ⟨m, hm, hread⟩ := h.toNode_eq hrow
          obtain rfl : n = m := Option.some.inj (hn.symm.trans hm)
          exact ⟨row, rfl, (NodeRow.toNode_eq_ok hread).2 ▸ hkind⟩

theorem nodeList_eq (h : rows.Holds c) (kind : Option NodeKind) :
    rows.nodeList kind = ((rows.nodeRows kind).map Prod.fst).filterMap c.node? := by
  rw [nodeList, decoded, readable, List.filterMap_map]
  refine List.filterMap_congr fun entry hentry => ?_
  obtain ⟨n, hn, hread⟩ := h.toNode_eq (mem_nodeRows.mp hentry).1
  rw [hread]
  exact hn.symm

theorem enumerates_edgeKeys (h : rows.Holds c) (selected : EdgeKey → Bool) :
    Enumerates (c.HasEdgeIn selected) ((rows.edgeRows selected).map Prod.fst) where
  nodup := by
    refine ((List.mergeSort_perm _ _).map Prod.fst).nodup_iff.mpr ?_
    rw [foldr_edges, List.Nodup, List.pairwise_map]
    exact (distinct_toList rows.edges).filter _
  mem_iff key := by
    simp only [List.mem_map, Prod.exists, exists_and_right, exists_eq_right, mem_edgeRows,
      Content.HasEdgeIn, h.hasEdge_eq, Option.isSome_iff_exists]

theorem edgeList_eq (h : rows.Holds c) (selected : EdgeKey → Bool) :
    rows.edgeList selected = ((rows.edgeRows selected).map Prod.fst).filterMap c.edge? := by
  rw [edgeList, readable, List.filterMap_map]
  refine List.filterMap_congr fun entry hentry => ?_
  obtain ⟨e, he, hread⟩ := h.toEdge_eq (mem_edgeRows.mp hentry).1
  rw [hread]
  exact he.symm

theorem enumerates_keys (h : rows.Holds c) (kind : Option EdgeKind) :
    Enumerates (c.HasEdgeIn fun key => kind.all fun k => key.kind = k)
      (rows.edges.keys.filter fun key => kind.all fun k => key.kind = k) where
  nodup := (nodup_keys rows.edges).filter _
  mem_iff key := by
    rw [List.mem_filter, Std.TreeMap.mem_keys, Std.TreeMap.mem_iff_isSome_getElem?,
      Content.HasEdgeIn, h.hasEdge_eq]

theorem edgeCount_eq (rows : Rows) (kind : Option EdgeKind) :
    rows.edgeCount kind = (rows.edges.keys.filter fun key => kind.all fun k => key.kind = k).length := by
  cases kind with
  | none =>
      show rows.edges.size = (rows.edges.keys.filter fun _ => true).length
      rw [List.filter_true, Std.TreeMap.length_keys]
  | some k => rfl

end Rows.Holds

namespace Table

variable {t : Table} {c : Content}

theorem node?_eq (hstate : t.state.IsReadable) (h : t.rows.Holds c) (id : String) :
    t.node? id = .ok (c.node? id) := by
  rw [node?, Statement.read_eq hstate]
  exact h.node?_eq id

theorem nodeCount_eq (hstate : t.state.IsReadable) (kind : Option NodeKind) :
    t.nodeCount kind = .ok (t.rows.nodeCount kind) := by
  rw [nodeCount, Statement.read_eq hstate]
  rfl

theorem edgeCount_eq (hstate : t.state.IsReadable) (kind : Option EdgeKind) :
    t.edgeCount kind = .ok (t.rows.edgeCount kind) := by
  rw [edgeCount, Statement.read_eq hstate]
  rfl

/-- **A table store shows what its rows hold.** -/
theorem shows (hstate : t.state.IsReadable) (h : t.rows.Holds c) : (Store.table t).Shows c where
  node? id := node?_eq hstate h id
  node id := by
    show t.node id = _
    rw [node, node?_eq hstate h]
    cases c.node? id <;> rfl
  hasNode id := by
    show t.hasNode id = _
    rw [hasNode, Statement.read_eq hstate, h.hasNode_eq, Std.TreeMap.isSome_getElem?_eq_contains]
    rfl
  findNodes kind filter limit offset hadmits := by
    refine ⟨_, h.enumerates_nodeIds kind, Rows.Holds.ascending_nodeIds t.rows kind, ?_⟩
    rw [← h.nodeList_eq]
    exact findNodes_eq hstate h.decodes hadmits kind limit offset
  nodeCount kind := by
    refine ⟨_, h.enumerates_nodeIds kind, ?_⟩
    show t.nodeCount kind = _
    rw [nodeCount_eq hstate, List.length_map, Rows.length_nodeRows]
  edgesFrom source target kind := by
    refine ⟨_, h.enumerates_edgeKeys _, ?_⟩
    rw [← h.edgeList_eq]
    exact edgesFrom_eq hstate h.decodes source target kind
  edgesTo target kind := by
    refine ⟨_, h.enumerates_edgeKeys _, ?_⟩
    rw [← h.edgeList_eq]
    exact edgesTo_eq hstate h.decodes target kind
  edgeCount kind := by
    refine ⟨_, h.enumerates_keys kind, ?_⟩
    show t.edgeCount kind = _
    rw [edgeCount_eq hstate, ← Rows.Holds.edgeCount_eq]
  edgeBound hkeys := by
    rw [hkeys.length_eq (h.enumerates_keys none) fun key => by simp [Content.HasEdgeIn],
      ← Rows.Holds.edgeCount_eq]
    exact Nat.le_refl _
  statistics := by
    let nodes kind := t.rows.nodeCount (some kind)
    let edges kind := t.rows.edgeCount (some kind)
    refine ⟨⟨"sqlite", t.rows.nodeCount none, t.rows.edgeCount none,
      Statistics.occurring nodes NodeKind.all, Statistics.occurring edges EdgeKind.all⟩, nodes, edges,
      ?_, nodeCount_eq hstate none, edgeCount_eq hstate none, fun kind => nodeCount_eq hstate (some kind),
      fun kind => edgeCount_eq hstate (some kind), rfl, rfl⟩
    show t.statistics = _
    rw [statistics, Statement.read_eq hstate]
    rfl

end Table

end ProgramGraph
