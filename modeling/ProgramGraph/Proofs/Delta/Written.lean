import ProgramGraph.Proofs.Delta.Repeated
import ProgramGraph.Proofs.Delta.Stored
import ProgramGraph.Proofs.Store.TableContent

set_option autoImplicit false

/-! # A change set written to rows

What a change set makes of rows can be said row by row (`Delta.written`), and without a condition on the
rows: they need not decode, nor have the ends of their edges. Rows are taken out by identifier and by key,
and put in by identifier and by key, so only the row in question matters. Of nodes that come with one
identifier the last stays, and of edges that come with one key the first, unless a row with the key stands
there already.
-/

namespace ProgramGraph

namespace Rows

variable (rows : Rows)

/-! ## One phase after the other -/

theorem getElem?_removeBetween (s : EdgeSelector) (key : EdgeKey) :
    (rows.removeBetween s.source s.target s.kind).edges[key]? =
      if s.Selects key then none else rows.edges[key]? := by
  obtain ⟨source, target, kind⟩ := s
  obtain ⟨source', target', kind'⟩ := key
  cases kind with
  | some kind =>
      refine (getElem?_erased rows.edges _ _).trans (if_congr ?_ rfl rfl)
      simp [EdgeSelector.Selects, EdgeSelector.exact, EdgeSelector.any, eq_comm]
  | none =>
      refine (getElem?_removeEdges rows _ _).trans (if_congr ?_ rfl rfl)
      simp [EdgeSelector.Selects, EdgeSelector.exact, EdgeSelector.any, @eq_comm _ source, @eq_comm _ target]

/-- Edges are removed by one selector after the other. -/
theorem removeAllBetween_spec (selectors : List EdgeSelector) :
    let rows' := selectors.foldl (fun rows s => rows.removeBetween s.source s.target s.kind) rows
    rows'.nodes = rows.nodes ∧
      ∀ key, rows'.edges[key]? = if ∃ s ∈ selectors, s.Selects key then none else rows.edges[key]? := by
  induction selectors generalizing rows with
  | nil => exact ⟨rfl, fun _ => by simp⟩
  | cons s rest ih =>
      obtain ⟨hnodes, hedges⟩ := ih (rows.removeBetween s.source s.target s.kind)
      refine ⟨hnodes.trans ?_, fun key => (hedges key).trans ?_⟩
      · cases s.kind <;> rfl
      · rw [getElem?_removeBetween, ← ite_or]
        simp only [List.exists_mem_cons_iff, or_comm]

/-- Nodes are removed one by one, with the edges that touch one of them. -/
theorem removeNodes_spec (ids : List String) :
    (∀ id, (ids.foldl removeNode rows).nodes[id]? = if id ∈ ids then none else rows.nodes[id]?) ∧
      ∀ key : EdgeKey, (ids.foldl removeNode rows).edges[key]? =
        if ∃ id ∈ ids, key.Touches id then none else rows.edges[key]? := by
  induction ids generalizing rows with
  | nil => exact ⟨fun _ => by simp, fun _ => by simp⟩
  | cons first rest ih =>
      obtain ⟨hnodes, hedges⟩ := ih (rows.removeNode first)
      refine ⟨fun id => (hnodes id).trans ?_, fun key => (hedges key).trans ?_⟩
      · have hfirst : (rows.removeNode first).nodes[id]? = if id = first then none else rows.nodes[id]? :=
          getElem?_erased rows.nodes first id
        rw [hfirst, ← ite_or]
        simp only [List.mem_cons, or_comm]
      · have hfirst : (rows.removeNode first).edges[key]? =
            if key.Touches first then none else rows.edges[key]? :=
          (getElem?_removeEdges rows _ key).trans (if_congr (by simp [EdgeKey.Touches]) rfl rfl)
        rw [hfirst, ← ite_or]
        simp only [List.exists_mem_cons_iff, or_comm]

/-- Nodes are put in one by one. Of those with an identifier the last stays. -/
theorem putNodes_spec (nodes : List Node) :
    (∀ id, (nodes.foldl putNode rows).nodes[id]? =
      ((nodes.reverse.find? fun n => n.id = id).map NodeRow.ofNode).or rows.nodes[id]?) ∧
      (nodes.foldl putNode rows).edges = rows.edges := by
  induction nodes generalizing rows with
  | nil => exact ⟨fun _ => rfl, rfl⟩
  | cons n rest ih =>
      obtain ⟨hnodes, hedges⟩ := ih (rows.putNode n)
      refine ⟨fun id => (hnodes id).trans ?_, hedges⟩
      have hfirst : (rows.putNode n).nodes[id]? = if id = n.id then some (.ofNode n) else rows.nodes[id]? :=
        getElem?_inserted rows.nodes n.id _ id
      rw [hfirst, List.reverse_cons, List.find?_append]
      cases rest.reverse.find? fun m => m.id = id with
      | some m => rfl
      | none =>
          by_cases hid : n.id = id
          · simp [hid]
          · simp [hid, Ne.symm hid]

/-- Edges are put in one by one. A row that is there stays, and of those with a key the first comes. -/
theorem putEdges_spec (edges : List Edge) :
    (edges.foldl putEdge rows).nodes = rows.nodes ∧
      (∀ {key : EdgeKey} {row}, rows.edges[key]? = some row → (edges.foldl putEdge rows).edges[key]? = some row) ∧
      ∀ {key : EdgeKey}, rows.edges[key]? = none →
        (edges.foldl putEdge rows).edges[key]?.map EdgeRow.properties =
          (edges.find? fun e => e.key = key).map fun e => Json.print e.properties.toWire := by
  induction edges generalizing rows with
  | nil =>
      refine ⟨rfl, fun hrow => hrow, fun hnone => ?_⟩
      rw [List.foldl_nil, hnone]
      rfl
  | cons e rest ih =>
      obtain ⟨hnodes, hkept, hadded⟩ := ih (rows.putEdge e)
      have hfirst : ∀ key, (rows.putEdge e).edges[key]? =
          if key = e.key then rows.edges[key]?.or (some ⟨rows.next, Json.print e.properties.toWire⟩)
            else rows.edges[key]? :=
        getElem?_insertedIfNew rows.edges e.key _
      refine ⟨hnodes, fun {key row} hrow => hkept ?_, fun {key} hnone => ?_⟩
      · rw [hfirst, hrow, Option.some_or, ite_self]
      · rw [List.foldl_cons, List.find?_cons]
        -- If the first edge has the key, its row is there from now on and no later one takes its place.
        by_cases hkey : e.key = key
        · have hrow : (rows.putEdge e).edges[key]? = some ⟨rows.next, Json.print e.properties.toWire⟩ := by
            rw [hfirst, if_pos hkey.symm, hnone, Option.none_or]
          rw [hkept hrow, decide_eq_true hkey]
          rfl
        · rw [hadded (by rw [hfirst, if_neg (Ne.symm hkey), hnone]), decide_eq_false hkey]

end Rows

/-! ## What a change set leaves -/

namespace Delta

/-- The rows after a change set, row by row. -/
structure Writes (d : Delta) (rows rows' : Rows) : Prop where
  node : ∀ id, rows'.nodes[id]? =
    ((d.nodeFor? id).map NodeRow.ofNode).or (if id ∈ d.deletedNodes then none else rows.nodes[id]?)
  kept : ∀ {key row}, ¬d.Removes key → rows.edges[key]? = some row → rows'.edges[key]? = some row
  added : ∀ {key}, d.Removes key ∨ rows.edges[key]? = none → rows'.edges[key]?.map EdgeRow.properties =
    (d.addedEdges.find? fun e => e.key = key).map fun e => Json.print e.properties.toWire

/-- **The operations of a change set** write it. -/
theorem writes (d : Delta) (rows : Rows) : d.Writes rows (d.operations.foldl Table.rowsAfter rows) := by
  -- Edges go first, then nodes with the edges that touch them. So what comes afterwards is not removed again.
  let cut := d.deletedEdges.toList.foldl (fun rows s => rows.removeBetween s.source s.target s.kind) rows
  let bare := d.deletedNodes.toList.foldl Rows.removeNode cut
  let filled := d.incomingNodes.foldl Rows.putNode bare
  have hrun : d.operations.foldl Table.rowsAfter rows = d.addedEdges.foldl Rows.putEdge filled := by
    simp only [operations, List.foldl_append, List.foldl_map]
    rfl
  obtain ⟨hcutNodes, hcutEdges⟩ := rows.removeAllBetween_spec d.deletedEdges.toList
  obtain ⟨hbareNodes, hbareEdges⟩ := cut.removeNodes_spec d.deletedNodes.toList
  obtain ⟨hfilledNodes, hfilledEdges⟩ := bare.putNodes_spec d.incomingNodes
  obtain ⟨hnodes, hkept, hadded⟩ := filled.putEdges_spec d.addedEdges
  have hfilled : ∀ key, filled.edges[key]? = if d.Removes key then none else rows.edges[key]? := by
    intro key
    rw [hfilledEdges, hbareEdges, hcutEdges, ← ite_or, if_congr (d.removes_iff key) rfl rfl]
  rw [hrun]
  constructor
  case node =>
    intro id
    rw [hnodes, hfilledNodes, hbareNodes, hcutNodes]
    simp only [Std.TreeSet.mem_toList]
    rfl
  case kept =>
    intro key row hstays hrow
    exact hkept (by rw [hfilled, if_neg hstays, hrow])
  case added =>
    intro key hgone
    apply hadded
    rw [hfilled]
    split
    · rfl
    · rename_i hstays
      exact hgone.resolve_left hstays

/-! ## What comes from one graph to another -/

variable {old new : Graph} {id : String} {n : Node}

/-- The node that comes is that of the new graph, -/
theorem of_nodeFor?_between (hnew : new.IsSound) (h : (between old new).nodeFor? id = some n) :
    new.node? id = some n := by
  have hcomes : n ∈ (between old new).incomingNodes := List.mem_reverse.mp (List.mem_of_find?_eq_some h)
  obtain rfl : n.id = id := by simpa using List.find?_some h
  exact ((mem_incomingNodes hnew).mp hcomes).1

theorem nodeFor?_between_of_none (hnew : new.IsSound) (h : new.node? id = none) :
    (between old new).nodeFor? id = none := by
  rw [Option.eq_none_iff_forall_ne_some]
  intro n hn
  cases h.symm.trans (of_nodeFor?_between hnew hn)

theorem nodeFor?_between_of_mem (hnew : new.IsSound) (hn : n ∈ (between old new).incomingNodes) :
    (between old new).nodeFor? n.id = some n :=
  Graph.find?_eq_of_unique (List.mem_reverse.mpr hn) rfl fun _ hm hid =>
    eq_of_mem_incomingNodes hnew (List.mem_reverse.mp hm) hn hid

/-- and so is the edge. -/
theorem of_find?_addedEdges (hnew : new.IsSound) {key : EdgeKey} {e : Edge}
    (h : (between old new).addedEdges.find? (fun e => e.key = key) = some e) : new.edge? key = some e := by
  obtain rfl : e.key = key := by simpa using List.find?_some h
  exact ((mem_addedEdges hnew).mp (List.mem_of_find?_eq_some h)).1

end Delta

end ProgramGraph
