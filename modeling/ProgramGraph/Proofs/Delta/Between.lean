import Mathlib.Tactic.Tauto
import ProgramGraph.Delta.Basic
import ProgramGraph.Proofs.Graph.Basic

set_option autoImplicit false

/-! # The difference of two graphs

Each part of the change set between two graphs is a membership in one of them and not in the other,
or not with the same content. For graphs whose nodes and edges stand where their identifiers and keys
say, these lemmas tell what is in each part.
-/

namespace ProgramGraph

theorem EdgeSelector.exact_inj {a b : EdgeKey} : EdgeSelector.exact a = EdgeSelector.exact b ↔ a = b := by
  obtain ⟨source, target, kind⟩ := a
  obtain ⟨source', target', kind'⟩ := b
  simp [EdgeSelector.exact]

namespace Delta

/-- A change set changes nothing if each of its parts is empty. -/
theorem isEmpty_iff_parts (d : Delta) :
    d.isEmpty = true ↔ d.deletedEdges.toList = [] ∧ d.deletedNodes.toList = [] ∧ d.incomingNodes = [] ∧
      d.addedEdges = [] := by
  rw [isEmpty, incomingNodes, ← Std.TreeSet.isEmpty_toList, ← Std.TreeSet.isEmpty_toList]
  simp only [Bool.and_eq_true, List.isEmpty_iff, List.append_eq_nil_iff]
  tauto

/-- Removing everything leads to the graph without nodes. -/
theorem removing_eq_between (g : Graph) : removing g = between g ∅ := by
  have hnodes : (g.nodeList.filter fun n => !(∅ : Graph).hasNode n.id) = g.nodeList :=
    List.filter_eq_self.mpr fun _ _ => rfl
  have hedges : ((g.edgeList.map Edge.key).filter fun key => !(∅ : Graph).hasEdge key) =
      g.edgeList.map Edge.key := List.filter_eq_self.mpr fun _ _ => rfl
  rw [removing, between, hnodes, hedges, List.map_map]
  rfl

variable {old new : Graph}

theorem mem_deletedEdges (hold : old.IsSound) {s : EdgeSelector} :
    s ∈ (between old new).deletedEdges.toList ↔
      ∃ key, s = .exact key ∧ old.hasEdge key = true ∧ new.hasEdge key = false := by
  have hedges : (between old new).deletedEdges =
      .ofList (((old.edgeList.map Edge.key).filter (!new.hasEdge ·)).map EdgeSelector.exact) := rfl
  rw [hedges, mem_toList_ofList, List.mem_map]
  refine exists_congr fun key => ?_
  rw [List.mem_filter, hold.mem_map_key, Bool.not_eq_true', and_comm, eq_comm]

/-- Edges are deleted one by one. -/
theorem exact_of_mem_deletedEdges (hold : old.IsSound) :
    ∀ s ∈ (between old new).deletedEdges.toList, ∃ key, s = EdgeSelector.exact key := fun _ hs =>
  let ⟨key, hkey, _⟩ := (mem_deletedEdges hold).mp hs
  ⟨key, hkey⟩

/-- An edge is deleted if only the old graph has it. -/
theorem contains_deletedEdges (hold : old.IsSound) (key : EdgeKey) :
    (between old new).deletedEdges.toList.contains (.exact key) = true ↔
      old.hasEdge key = true ∧ new.hasEdge key = false := by
  rw [List.contains_iff_mem, mem_deletedEdges hold]
  constructor
  · rintro ⟨key', hkey, h⟩
    obtain rfl := EdgeSelector.exact_inj.mp hkey
    exact h
  · intro h
    exact ⟨key, rfl, h⟩

theorem mem_deletedNodes (hold : old.IsSound) {id : String} :
    id ∈ (between old new).deletedNodes.toList ↔ old.hasNode id = true ∧ new.hasNode id = false := by
  have hnodes : (between old new).deletedNodes =
      .ofList ((old.nodeList.filter fun n => !new.hasNode n.id).map Node.id) := rfl
  rw [hnodes, mem_toList_ofList, List.mem_map, Graph.hasNode_eq old, Option.isSome_iff_exists]
  constructor
  · rintro ⟨n, hn, rfl⟩
    obtain ⟨hn, hnew⟩ := List.mem_filter.mp hn
    exact ⟨⟨n, (hold.mem_nodeList n).mp hn⟩, by simpa using hnew⟩
  · rintro ⟨⟨n, hfound⟩, hnew⟩
    obtain rfl := hold.id_eq hfound
    exact ⟨n, List.mem_filter.mpr ⟨(hold.mem_nodeList n).mpr hfound, by simpa using hnew⟩, rfl⟩

theorem mem_incomingNodes (hnew : new.IsSound) {n : Node} :
    n ∈ (between old new).incomingNodes ↔
      new.node? n.id = some n ∧ ((old.node? n.id).all fun before => !before.sameContent n) = true := by
  have hincoming : (between old new).incomingNodes =
      new.nodeList.filter (isNew old) ++ new.nodeList.filter (isChanged old) := rfl
  rw [hincoming, List.mem_append, List.mem_filter, List.mem_filter, hnew.mem_nodeList, ← and_or_left]
  refine and_congr_right fun _ => ?_
  cases hold : old.node? n.id <;> simp [isNew, isChanged, hold]

/-- No two nodes that come have one identifier. -/
theorem eq_of_mem_incomingNodes (hnew : new.IsSound) {m n : Node} (hm : m ∈ (between old new).incomingNodes)
    (hn : n ∈ (between old new).incomingNodes) (hid : m.id = n.id) : m = n := by
  have hm := ((mem_incomingNodes hnew).mp hm).1
  have hn := ((mem_incomingNodes hnew).mp hn).1
  rw [hid] at hm
  exact Option.some.inj (hm.symm.trans hn)

/-- A node that does not come was there with the same content, and no other comes in its place. -/
theorem exists_of_not_mem_incomingNodes (hnew : new.IsSound) {n : Node} (hn : new.node? n.id = some n)
    (hcomes : n ∉ (between old new).incomingNodes) :
    (∀ k ∈ (between old new).incomingNodes, k.id ≠ n.id) ∧
      ∃ before, old.node? n.id = some before ∧ before.sameContent n = true := by
  constructor
  · intro k hk hid
    have hfound := ((mem_incomingNodes hnew).mp hk).1
    rw [hid] at hfound
    exact hcomes (Option.some.inj (hfound.symm.trans hn) ▸ hk)
  · rw [mem_incomingNodes hnew] at hcomes
    cases hbefore : old.node? n.id with
    | none => simp [hn, hbefore] at hcomes
    | some before => exact ⟨before, rfl, by simpa [hn, hbefore] using hcomes⟩

/-- No node comes where the new graph has none. -/
theorem ne_of_mem_incomingNodes (hnew : new.IsSound) {id : String} (hid : new.node? id = none) :
    ∀ k ∈ (between old new).incomingNodes, k.id ≠ id := by
  rintro k hk rfl
  rw [((mem_incomingNodes hnew).mp hk).1] at hid
  cases hid

theorem mem_addedEdges (hnew : new.IsSound) {e : Edge} :
    e ∈ (between old new).addedEdges ↔ new.edge? e.key = some e ∧ old.hasEdge e.key = false := by
  have hedges : (between old new).addedEdges = new.edgeList.filter fun e => !old.hasEdge e.key := rfl
  rw [hedges, List.mem_filter, hnew.mem_edgeList]
  simp

/-- An edge is added if only the new graph has it. -/
theorem any_addedEdges (hnew : new.IsSound) (key : EdgeKey) :
    ((between old new).addedEdges.any fun e => decide (key = e.key)) = true ↔
      new.hasEdge key = true ∧ old.hasEdge key = false := by
  rw [List.any_eq_true]
  constructor
  · rintro ⟨e, he, hkey⟩
    obtain ⟨hfound, hnone⟩ := (mem_addedEdges hnew).mp he
    obtain rfl := of_decide_eq_true hkey
    exact ⟨Graph.hasEdge_iff.mpr ⟨e, hfound⟩, hnone⟩
  · rintro ⟨hthere, hnone⟩
    obtain ⟨e, he⟩ := Graph.hasEdge_iff.mp hthere
    obtain rfl := hnew.key_eq he
    exact ⟨e, (mem_addedEdges hnew).mpr ⟨he, hnone⟩, decide_eq_true rfl⟩

end Delta

end ProgramGraph
