import ProgramGraph.Proofs.Delta.Applied
import ProgramGraph.Proofs.Store.Hops

set_option autoImplicit false

/-! # A change set made twice

A change set may say several things about one place: a node is deleted and added, or comes in two
versions, an edge is deleted by its key and by a star and added again, or has an end that never comes.
What it leaves can be said place by place all the same. Under an identifier stands the last node that comes
with it, and otherwise what was there, unless it is deleted (`Delta.node?_applyTo`). Under a key stands the
last edge that comes with it, if both its ends are nodes in the end, and otherwise what was there, unless
it is removed or has lost an end (`Delta.edge?_applyTo`).

Either is something that comes, or else what was there unless it goes. To say that twice is to say it once
(`or_ite_or_ite`), because the second time the same things come: which edges come depends on the nodes
alone, and those are the same already (`Delta.applyTo_applyTo`).
-/

namespace ProgramGraph

/-! ## Single edges and stars -/

namespace EdgeSelector

/-- The edge with the key is selected, by its key or by a star between its ends. -/
def Selects (s : EdgeSelector) (key : EdgeKey) : Prop := s = exact key ∨ s = any key.source key.target

instance (s : EdgeSelector) (key : EdgeKey) : Decidable (s.Selects key) :=
  inferInstanceAs (Decidable (_ ∨ _))

end EdgeSelector

namespace Graph

variable {g : Graph}

theorem IsIndexed.cuts_removeSelected (h : g.IsIndexed) (s : EdgeSelector) :
    ∃ keys, Cuts g keys (Delta.removeSelected g s) ∧
      ∀ key, g.hasEdge key = true → (key ∈ keys ↔ s.Selects key) := by
  obtain ⟨source, target, kind⟩ := s
  cases kind with
  | some kind =>
      refine ⟨_, .removeEdge g ⟨source, target, kind⟩, fun key _ => ?_⟩
      obtain ⟨source', target', kind'⟩ := key
      simp [EdgeSelector.Selects, EdgeSelector.exact, EdgeSelector.any, eq_comm]
  | none =>
      refine ⟨_, g.cuts_removeEdgesBetween source target, fun key hkey => ?_⟩
      obtain ⟨source', target', kind'⟩ := key
      rw [List.mem_filter, h.mem_keysAt, decide_eq_true_eq]
      simp [EdgeSelector.Selects, EdgeSelector.exact, EdgeSelector.any, EdgeKey.near, hkey, eq_comm]

theorem IsIndexed.edge?_removeSelected (h : g.IsIndexed) (s : EdgeSelector) (key : EdgeKey) :
    (Delta.removeSelected g s).edge? key = if s.Selects key then none else g.edge? key := by
  obtain ⟨keys, hcuts, hkeys⟩ := h.cuts_removeSelected s
  rw [hcuts.edge?]
  cases hkey : g.edge? key with
  | none => rw [ite_self, ite_self]
  | some e => rw [if_congr (hkeys key (hasEdge_iff.mpr ⟨e, hkey⟩)) rfl rfl]

/-- Edges are removed by one selector after the other. -/
theorem removeAllSelected_spec (h : g.IsIndexed) (selectors : List EdgeSelector) :
    (selectors.foldl Delta.removeSelected g).IsIndexed ∧
      (∀ id, (selectors.foldl Delta.removeSelected g).node? id = g.node? id) ∧
      ∀ key, (selectors.foldl Delta.removeSelected g).edge? key =
        if ∃ s ∈ selectors, s.Selects key then none else g.edge? key := by
  induction selectors generalizing g with
  | nil => exact ⟨h, fun _ => rfl, fun _ => by simp⟩
  | cons s rest ih =>
      obtain ⟨hindexed, hnode, hedge⟩ := ih (Delta.isIndexed_removeSelected h s)
      obtain ⟨keys, hcuts, -⟩ := h.cuts_removeSelected s
      refine ⟨hindexed, fun id => (hnode id).trans (hcuts.node? id), fun key => (hedge key).trans ?_⟩
      rw [h.edge?_removeSelected, ← ite_or]
      simp only [List.exists_mem_cons_iff, or_comm]

end Graph

/-! ## What a change set leaves -/

namespace Delta

variable {g : Graph} (d : Delta)

/-- The node that comes with an identifier: of several the last. -/
def nodeFor? (id : String) : Option Node := d.incomingNodes.reverse.find? fun n => n.id = id

/-- The edge that comes with a key: of several the last. -/
def edgeFor? (key : EdgeKey) : Option Edge := d.addedEdges.reverse.find? fun e => e.key = key

/-- An edge with the key goes: it is selected, or one of its ends is deleted. -/
def Removes (key : EdgeKey) : Prop :=
  EdgeSelector.exact key ∈ d.deletedEdges ∨ EdgeSelector.any key.source key.target ∈ d.deletedEdges ∨
    key.source ∈ d.deletedNodes ∨ key.target ∈ d.deletedNodes

instance (key : EdgeKey) : Decidable (d.Removes key) := inferInstanceAs (Decidable (_ ∨ _ ∨ _ ∨ _))

theorem removes_iff (key : EdgeKey) : d.Removes key ↔
    (∃ id ∈ d.deletedNodes.toList, key.Touches id) ∨ ∃ s ∈ d.deletedEdges.toList, s.Selects key := by
  simp only [Removes, EdgeKey.Touches, EdgeSelector.Selects, Std.TreeSet.mem_toList, and_or_left, exists_or,
    exists_eq_right, exists_eq_right']
  tauto

/-- The graph between the deletions and the additions. -/
def pruned (g : Graph) : Graph :=
  d.deletedNodes.toList.foldl Graph.removeNode (d.deletedEdges.toList.foldl removeSelected g)

theorem pruned_eq (h : g.IsIndexed) :
    (∀ id, (d.pruned g).node? id = if id ∈ d.deletedNodes then none else g.node? id) ∧
      ∀ key, (d.pruned g).edge? key = if d.Removes key then none else g.edge? key := by
  obtain ⟨hindexed, hnode, hedge⟩ := Graph.removeAllSelected_spec h d.deletedEdges.toList
  obtain ⟨-, hnode', hedge'⟩ := Graph.removeNodes_spec hindexed d.deletedNodes.toList
  refine ⟨fun id => (hnode' id).trans ?_, fun key => (hedge' key).trans ?_⟩
  · simp only [hnode, Std.TreeSet.mem_toList]
  · rw [hedge, ← ite_or, if_congr (d.removes_iff key) rfl rfl]

/-- **What stands under an identifier** after a change set. -/
theorem node?_applyTo (h : g.IsIndexed) (id : String) :
    (d.applyTo g).node? id =
      (d.nodeFor? id).or (if id ∈ d.deletedNodes then none else g.node? id) := by
  have happly : d.applyTo g = d.addedEdges.foldl Graph.attach ((d.pruned g).addNodes d.incomingNodes) := rfl
  rw [happly, Graph.node?_attachAll, Graph.node?_addNodes, (d.pruned_eq h).1]
  rfl

/-- **What stands under a key** after a change set. -/
theorem edge?_applyTo (h : g.IsIndexed) (key : EdgeKey) :
    (d.applyTo g).edge? key =
      (if (d.applyTo g).hasNode key.source ∧ (d.applyTo g).hasNode key.target then d.edgeFor? key
        else none).or (if d.Removes key then none else g.edge? key) := by
  have happly : d.applyTo g = d.addedEdges.foldl Graph.attach ((d.pruned g).addNodes d.incomingNodes) := rfl
  rw [happly, Graph.hasNode_attachAll, Graph.hasNode_attachAll, Graph.edge?_attachAll, Graph.edge?_addNodes,
    (d.pruned_eq h).2]
  rfl

end Delta

/-! ## Twice -/

/-- Something that comes, or else what was there unless it goes: said twice, it is said once. -/
theorem or_ite_or_ite {α : Type} {p : Prop} [Decidable p] (a b : Option α) :
    (a.or (if p then none else a.or (if p then none else b))) = a.or (if p then none else b) := by
  cases a with
  | some _ => rfl
  | none => by_cases hp : p <;> simp [hp]

namespace Delta

variable {g : Graph} (d : Delta)

/-- **A change set made twice is made once.** What it leaves under each identifier and under each key is said
by the change set and by what was there, and the second time nothing changes: neither a node nor an edge,
nor the edges at a node. -/
theorem applyTo_applyTo (h : g.Reachable) :
    (∀ id, (d.applyTo g).node? id =
      (d.nodeFor? id).or (if id ∈ d.deletedNodes then none else g.node? id)) ∧
    (∀ key, (d.applyTo g).edge? key =
      (if (d.applyTo g).hasNode key.source ∧ (d.applyTo g).hasNode key.target then d.edgeFor? key
        else none).or (if d.Removes key then none else g.edge? key)) ∧
    (d.applyTo (d.applyTo g)).Same (d.applyTo g) := by
  have honce := (h.applyTo d).isIndexed
  have htwice := ((h.applyTo d).applyTo d).isIndexed
  have hnode : ∀ id, (d.applyTo (d.applyTo g)).node? id = (d.applyTo g).node? id := fun id => by
    rw [d.node?_applyTo honce, d.node?_applyTo h.isIndexed, or_ite_or_ite]
  have hthere : ∀ id, (d.applyTo (d.applyTo g)).hasNode id = (d.applyTo g).hasNode id := fun id => by
    rw [Graph.hasNode_eq, Graph.hasNode_eq, hnode]
  have hedge : ∀ key, (d.applyTo (d.applyTo g)).edge? key = (d.applyTo g).edge? key := fun key => by
    rw [d.edge?_applyTo honce, hthere, hthere, d.edge?_applyTo h.isIndexed, or_ite_or_ite]
  exact ⟨d.node?_applyTo h.isIndexed, d.edge?_applyTo h.isIndexed, htwice.same honce hnode hedge⟩

/-- A node goes and comes back in two versions; what led to it goes by a star, and one edge comes back,
twice. A loop goes and comes, an edge to nowhere does not come, and a call is lost with the node. -/
theorem applyTo_applyTo_backTwice :
    let node (id : String) (core : NodeCore) : Node := ⟨id, core, ∅⟩
    let calls (line : Int64) : EdgeCore := .calls (some line) "direct" none
    let g : Graph := [Edge.ofCore "m" "f" (.contains (some 1)), .ofCore "m" "f" (.references "read" none),
      .ofCore "f" "g" (calls 2), .ofCore "g" "g" (calls 3)].foldl Graph.attach ((∅ : Graph).addNodes
        [node "m" (.module "m" "m"), node "f" (.variable "f" "m.f"), node "g" (.variable "g" "m.g")])
    let d : Delta :=
      { addedNodes := [node "f" (.variable "f" "m.f2")]
        updatedNodes := [node "f" (.variable "f" "m.f3")]
        deletedNodes := .ofList ["f"]
        addedEdges := [.ofCore "m" "f" (.contains (some 4)), .ofCore "m" "f" (.contains (some 5)),
          .ofCore "g" "h" (calls 6), .ofCore "g" "g" (calls 7)]
        deletedEdges := .ofList [EdgeSelector.any "m" "f", EdgeSelector.exact ⟨"g", "g", .calls⟩] }
    g.Reachable ∧ (d.applyTo (d.applyTo g)).Same (d.applyTo g) ∧
      (d.applyTo g).nodeList.map Node.core =
        [.variable "f" "m.f3", .variable "g" "m.g", .module "m" "m"] ∧
      (d.applyTo g).edgeList.map (fun e => (e.key, e.core)) =
        [(⟨"g", "g", .calls⟩, calls 7), (⟨"m", "f", .contains⟩, .contains (some 5))] := by
  intro node calls g d
  have hg : g.Reachable := (Graph.Reachable.empty.addNodes _).attachAll _
  obtain ⟨-, -, hsame⟩ := applyTo_applyTo d hg
  exact ⟨hg, hsame, by decide +kernel, by decide +kernel⟩

end Delta

end ProgramGraph
