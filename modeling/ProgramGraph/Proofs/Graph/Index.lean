import Mathlib.Data.List.Basic
import Mathlib.Tactic.Tauto
import ProgramGraph.Proofs.Graph.Basic

set_option autoImplicit false

/-! # The index of a graph

A graph keeps, beside its edges, the keys at each node in each direction. `Graph.IsIndexed` says
that this index is right: a key stands at the node where its edge begins or ends if the graph has
the edge, and nowhere else. Then the edges at a node are those that a scan of all edges would
find (`adjacent_eq`).

What is put in enters the index at two places and what is taken out leaves it at two places. The
removal of a node drops both index sets of the node before its edges are taken out, so in between
the index is wrong; `Cuts` therefore says what removals do to any graph, indexed or not.
-/

namespace ProgramGraph

/-- The end of an edge at which it is found in a direction. -/
def EdgeKey.near (key : EdgeKey) : Direction → String
  | .outgoing => key.source
  | .incoming => key.target

/-- The end of an edge to which it leads in a direction. -/
def EdgeKey.far (key : EdgeKey) : Direction → String
  | .outgoing => key.target
  | .incoming => key.source

/-- The node is an end of the edge. -/
def EdgeKey.Touches (key : EdgeKey) (id : String) : Prop := key.source = id ∨ key.target = id

instance (key : EdgeKey) (id : String) : Decidable (key.Touches id) :=
  inferInstanceAs (Decidable (_ ∨ _))

namespace Adjacency

variable (index : Adjacency) (id at_ : String) (key k : EdgeKey)

theorem mem_keysAt : k ∈ index.keysAt at_ ↔ ∃ keys, index[at_]? = some keys ∧ k ∈ keys := by
  unfold keysAt
  cases index[at_]? with
  | none => simp
  | some keys => simp [Std.TreeSet.mem_toList]

theorem ordered_keysAt : (index.keysAt at_).Pairwise fun a b => compare a b = .lt := by
  unfold keysAt
  cases index[at_]? with
  | none => exact .nil
  | some keys => exact Std.TreeSet.ordered_toList

theorem mem_keysAt_link :
    k ∈ (index.link id key).keysAt at_ ↔ (k = key ∧ id = at_) ∨ k ∈ index.keysAt at_ := by
  have hinsert : ∀ keys : Std.TreeSet EdgeKey, k ∈ keys.insert key ↔ k = key ∨ k ∈ keys := fun keys => by
    rw [Std.TreeSet.mem_insert, Std.LawfulEqCmp.compare_eq_iff_eq, eq_comm]
  rw [mem_keysAt, mem_keysAt, link, getElem?_inserted]
  by_cases hat : at_ = id
  · subst hat
    cases index[at_]? <;> simp [hinsert]
  · simp [hat, Ne.symm hat]

theorem mem_keysAt_unlink :
    k ∈ (index.unlink id key).keysAt at_ ↔ k ∈ index.keysAt at_ ∧ ¬(k = key ∧ id = at_) := by
  have herase : ∀ keys : Std.TreeSet EdgeKey, k ∈ keys.erase key ↔ k ∈ keys ∧ k ≠ key := fun keys => by
    rw [Std.TreeSet.mem_erase, ne_eq, Std.LawfulEqCmp.compare_eq_iff_eq, eq_comm, and_comm]
  rw [mem_keysAt, mem_keysAt, unlink]
  by_cases hat : at_ = id
  · subst hat
    cases hold : index[at_]? with
    | none => simp [hold]
    | some keys => simp [herase]
  · cases index[id]? with
    | none => simp [Ne.symm hat]
    | some keys => simp [getElem?_inserted, hat, Ne.symm hat]

theorem mem_keysAt_erase : k ∈ Adjacency.keysAt (index.erase id) at_ ↔ at_ ≠ id ∧ k ∈ index.keysAt at_ := by
  rw [mem_keysAt, mem_keysAt, getElem?_erased]
  by_cases hat : at_ = id <;> simp [hat]

end Adjacency

namespace Graph

/-- A sound graph whose index has every edge at both its ends, and nothing else. -/
structure IsIndexed (g : Graph) : Prop extends IsSound g where
  mem_keysAt : ∀ {id direction key},
    key ∈ g.keysAt id direction ↔ g.hasEdge key = true ∧ key.near direction = id

theorem ordered_keysAt (g : Graph) (id : String) (direction : Direction) :
    (g.keysAt id direction).Pairwise fun a b => compare a b = .lt := by
  cases direction <;> exact Adjacency.ordered_keysAt ..

theorem isIndexed_empty : IsIndexed ∅ where
  toIsSound := isSound_empty
  mem_keysAt {id direction key} := by
    have hkeys : (∅ : Graph).keysAt id direction = [] := by cases direction <;> rfl
    have hedge : (∅ : Graph).hasEdge key = false := rfl
    simp [hkeys, hedge]

/-! ## Putting in -/

@[simp] theorem keysAt_addNode (g : Graph) (n : Node) (id : String) (direction : Direction) :
    (g.addNode n).keysAt id direction = g.keysAt id direction := by cases direction <;> rfl

/-- An edge that is put in enters the index at its two ends. -/
theorem mem_keysAt_addEdge {g g' : Graph} {e : Edge} (h : g.addEdge e = .ok g') (id : String)
    (direction : Direction) (key : EdgeKey) :
    key ∈ g'.keysAt id direction ↔
      (key = e.key ∧ e.key.near direction = id) ∨ key ∈ g.keysAt id direction := by
  unfold addEdge at h
  split at h
  · cases h
  · split at h
    · cases h
    · obtain rfl := Except.ok.inj h
      cases direction <;> exact Adjacency.mem_keysAt_link ..

/-- An edge that is put in has both its ends. -/
theorem ends_of_addEdge {g g' : Graph} {e : Edge} (h : g.addEdge e = .ok g') :
    g.hasNode e.source = true ∧ g.hasNode e.target = true := by
  unfold addEdge at h
  split at h
  · cases h
  · split at h
    · cases h
    · simp_all

theorem joins_addEdge {g g' : Graph} {e : Edge} (h : g.addEdge e = .ok g') : Joins g e g' := by
  obtain ⟨hsource, htarget⟩ := ends_of_addEdge h
  obtain ⟨g₁, hadd, hjoins⟩ := addEdge_eq hsource htarget
  obtain rfl := Except.ok.inj (h.symm.trans hadd)
  exact hjoins

namespace IsIndexed

variable {g g' : Graph}

theorem addNode (h : g.IsIndexed) (n : Node) : (g.addNode n).IsIndexed where
  toIsSound := h.toIsSound.addNode n
  mem_keysAt := by
    intro id direction key
    rw [keysAt_addNode, hasEdge_addNode]
    exact h.mem_keysAt

theorem addEdge (h : g.IsIndexed) {e : Edge} (hadd : g.addEdge e = .ok g') : g'.IsIndexed where
  toIsSound := h.toIsSound.joins (joins_addEdge hadd) (ends_of_addEdge hadd).1 (ends_of_addEdge hadd).2
  mem_keysAt := by
    intro id direction key
    rw [mem_keysAt_addEdge hadd, (joins_addEdge hadd).hasEdge, h.mem_keysAt, Bool.or_eq_true,
      decide_eq_true_eq, or_and_right]
    refine or_congr (and_congr_right ?_) Iff.rfl
    rintro rfl
    rfl

theorem attach (h : g.IsIndexed) (e : Edge) : (g.attach e).IsIndexed := by
  unfold Graph.attach
  split
  · rename_i g' hadd
    exact h.addEdge hadd
  · exact h

theorem addNodes (h : g.IsIndexed) (nodes : List Node) : (g.addNodes nodes).IsIndexed :=
  List.foldlRecOn nodes Graph.addNode h fun _ hg n _ => hg.addNode n

theorem addEdges (h : g.IsIndexed) {edges : List Edge} (hadd : g.addEdges edges = .ok g') :
    g'.IsIndexed := by
  induction edges generalizing g with
  | nil => exact Except.ok.inj hadd ▸ h
  | cons e rest ih =>
      rw [Graph.addEdges, List.foldlM_cons] at hadd
      cases hfirst : g.addEdge e with
      | error _ =>
          rw [hfirst] at hadd
          cases hadd
      | ok g₁ =>
          rw [hfirst] at hadd
          exact ih (h.addEdge hfirst) hadd

end IsIndexed

/-! ## Taking out -/

/-- Some edges are taken out, and leave the index at their ends. -/
structure Cuts (g : Graph) (keys : List EdgeKey) (g' : Graph) : Prop where
  node? : ∀ id, g'.node? id = g.node? id
  edge? : ∀ key, g'.edge? key = if key ∈ keys then none else g.edge? key
  mem_keysAt : ∀ id direction key, key ∈ g'.keysAt id direction ↔
    key ∈ g.keysAt id direction ∧ ¬(key ∈ keys ∧ g.hasEdge key = true ∧ key.near direction = id)

namespace Cuts

variable {g g' g'' : Graph} {keys more : List EdgeKey}

theorem hasNode (h : Cuts g keys g') (id : String) : g'.hasNode id = g.hasNode id := by
  rw [hasNode_eq, hasNode_eq, h.node?]

theorem hasEdge (h : Cuts g keys g') (key : EdgeKey) :
    g'.hasEdge key = (decide (key ∉ keys) && g.hasEdge key) := by
  rw [hasEdge_eq, hasEdge_eq, h.edge?]
  by_cases hkey : key ∈ keys <;> simp [hkey]

theorem refl (g : Graph) : Cuts g [] g := ⟨fun _ => rfl, fun _ => rfl, fun _ _ _ => by simp⟩

theorem trans (h : Cuts g keys g') (h' : Cuts g' more g'') : Cuts g (keys ++ more) g'' where
  node? id := (h'.node? id).trans (h.node? id)
  edge? key := by
    rw [h'.edge?, h.edge?]
    by_cases hkeys : key ∈ keys <;> by_cases hmore : key ∈ more <;> simp [hkeys, hmore]
  mem_keysAt id direction key := by
    rw [h'.mem_keysAt, h.mem_keysAt, h.hasEdge, List.mem_append, Bool.and_eq_true, decide_eq_true_eq]
    tauto

/-- A single edge. Without it the graph stays as it is. -/
theorem removeEdge (g : Graph) (key : EdgeKey) : Cuts g [key] (g.removeEdge key) := by
  unfold Graph.removeEdge
  by_cases hthere : g.hasEdge key = true
  · rw [if_pos hthere]
    refine ⟨fun _ => rfl, fun k => ?_, fun id direction k => ?_⟩
    · simp only [List.mem_singleton]
      exact getElem?_erased g.edges key k
    · have hunlink : ∀ index : Adjacency, k ∈ (index.unlink (key.near direction) key).keysAt id ↔
          k ∈ index.keysAt id ∧ ¬(k ∈ [key] ∧ g.hasEdge k = true ∧ k.near direction = id) := by
        intro index
        rw [Adjacency.mem_keysAt_unlink, List.mem_singleton]
        refine and_congr_right fun _ => not_congr (and_congr_right ?_)
        rintro rfl
        rw [hthere, eq_self_iff_true, true_and]
      cases direction with
      | outgoing => exact hunlink g.outgoing
      | incoming => exact hunlink g.incoming
  · -- The edge is not there, and the graph stays as it is.
    rw [if_neg hthere]
    refine ⟨fun _ => rfl, fun k => ?_, fun id direction k => ?_⟩
    · simp only [List.mem_singleton]
      split
      · rename_i hk
        rw [← hk, Bool.not_eq_true, ← edge?_eq_none_iff] at hthere
        exact hthere
      · rfl
    · rw [List.mem_singleton]
      exact ⟨fun hk => ⟨hk, fun ⟨heq, hedge, _⟩ => hthere (heq ▸ hedge)⟩, fun hk => hk.1⟩

/-- One edge after the other. -/
theorem removeEdges (keys : List EdgeKey) (g : Graph) : Cuts g keys (keys.foldl Graph.removeEdge g) := by
  induction keys generalizing g with
  | nil => exact refl g
  | cons key rest ih => exact (removeEdge g key).trans (ih _)

end Cuts

theorem cuts_removeEdgesBetween (g : Graph) (source target : String) :
    Cuts g ((g.keysAt source .outgoing).filter fun key => key.target = target)
      (g.removeEdgesBetween source target) :=
  .removeEdges _ g

namespace IsIndexed

variable {g g' : Graph}

theorem cuts (h : g.IsIndexed) {keys : List EdgeKey} (hcuts : Cuts g keys g') : g'.IsIndexed where
  id_eq hn := h.id_eq ((hcuts.node? _).symm.trans hn)
  key_eq := by
    intro key e he
    rw [hcuts.edge?] at he
    split at he
    · cases he
    · exact h.key_eq he
  source hkey := by
    rw [hcuts.hasEdge, Bool.and_eq_true] at hkey
    rw [hcuts.hasNode]
    exact h.source hkey.2
  target hkey := by
    rw [hcuts.hasEdge, Bool.and_eq_true] at hkey
    rw [hcuts.hasNode]
    exact h.target hkey.2
  mem_keysAt := by
    intro id direction key
    rw [hcuts.mem_keysAt, hcuts.hasEdge, h.mem_keysAt, Bool.and_eq_true, decide_eq_true_eq]
    tauto

end IsIndexed

/-! ## Taking a node out -/

/-- A graph without a node and its index sets, whose edges are still there. -/
def bare (g : Graph) (id : String) : Graph :=
  { g with
    nodes := g.nodes.erase id
    outgoing := g.outgoing.erase id
    incoming := g.incoming.erase id }

theorem node?_bare (g : Graph) (id other : String) :
    (g.bare id).node? other = if other = id then none else g.node? other :=
  getElem?_erased g.nodes id other

theorem mem_keysAt_bare (g : Graph) (id other : String) (direction : Direction) (key : EdgeKey) :
    key ∈ (g.bare id).keysAt other direction ↔ other ≠ id ∧ key ∈ g.keysAt other direction := by
  cases direction <;> exact Adjacency.mem_keysAt_erase ..

theorem cuts_removeNode {g : Graph} {id : String} (hid : g.hasNode id = true) :
    Cuts (g.bare id) (g.keysAt id .outgoing ++ g.keysAt id .incoming) (g.removeNode id) := by
  rw [removeNode, if_pos hid]
  exact .removeEdges _ _

theorem removeNode_eq_self {g : Graph} {id : String} (hid : g.hasNode id = false) :
    g.removeNode id = g := by
  rw [removeNode, hid, if_neg Bool.false_ne_true]

theorem node?_removeNode (g : Graph) (id other : String) :
    (g.removeNode id).node? other = if other = id then none else g.node? other := by
  cases hid : g.hasNode id with
  | true => rw [(cuts_removeNode hid).node?, node?_bare]
  | false =>
      rw [removeNode_eq_self hid]
      replace hid := node?_eq_none_iff.mpr hid
      split
      · rename_i heq
        rw [heq, hid]
      · rfl

namespace IsIndexed

variable {g : Graph}

/-- Both index sets of a node together have the edges that touch it. -/
theorem mem_touching (h : g.IsIndexed) {id : String} {key : EdgeKey} :
    key ∈ g.keysAt id .outgoing ++ g.keysAt id .incoming ↔ g.hasEdge key = true ∧ key.Touches id := by
  rw [List.mem_append, h.mem_keysAt, h.mem_keysAt, ← and_or_left]
  rfl

/-- A node that is not there is no end of an edge. -/
theorem not_touches (h : g.IsIndexed) {id : String} {key : EdgeKey} (hid : g.hasNode id = false)
    (hkey : g.hasEdge key = true) : ¬key.Touches id := by
  rintro (rfl | rfl)
  · rw [h.source hkey] at hid
    cases hid
  · rw [h.target hkey] at hid
    cases hid

/-- With a node go the edges that touch it, and no other. -/
theorem edge?_removeNode (h : g.IsIndexed) (id : String) (key : EdgeKey) :
    (g.removeNode id).edge? key = if key.Touches id then none else g.edge? key := by
  cases hkey : g.hasEdge key with
  | true =>
      cases hid : g.hasNode id with
      | true =>
          rw [(cuts_removeNode hid).edge?]
          simp only [h.mem_touching, hkey, true_and]
          rfl
      -- No edge touches a node that is not there.
      | false => rw [removeNode_eq_self hid, if_neg (h.not_touches hid hkey)]
  | false =>
      have hnone : g.edge? key = none := edge?_eq_none_iff.mpr hkey
      rw [hnone, ite_self]
      cases hid : g.hasNode id with
      | true =>
          have hbare : (g.bare id).edge? key = none := hnone
          rw [(cuts_removeNode hid).edge?, hbare, ite_self]
      | false => rw [removeNode_eq_self hid, hnone]

theorem removeNode (h : g.IsIndexed) (id : String) : (g.removeNode id).IsIndexed := by
  have hnode : ∀ other, other ≠ id → (g.removeNode id).hasNode other = g.hasNode other := by
    intro other hne
    rw [hasNode_eq, hasNode_eq, node?_removeNode, if_neg hne]
  have hedge : ∀ {key}, (g.removeNode id).hasEdge key = true ↔ ¬key.Touches id ∧ g.hasEdge key = true := by
    intro key
    rw [hasEdge_eq, hasEdge_eq, h.edge?_removeNode]
    by_cases htouches : key.Touches id <;> simp [htouches]
  cases hid : g.hasNode id with
  | false =>
      rw [removeNode_eq_self hid]
      exact h
  | true =>
      exact
        { id_eq := by
            intro other n hn
            rw [node?_removeNode] at hn
            split at hn
            · cases hn
            · exact h.id_eq hn
          key_eq := by
            intro key e he
            rw [h.edge?_removeNode] at he
            split at he
            · cases he
            · exact h.key_eq he
          source := by
            intro key hkey
            obtain ⟨htouches, hkey⟩ := hedge.mp hkey
            rw [hnode _ fun heq => htouches (.inl heq)]
            exact h.source hkey
          target := by
            intro key hkey
            obtain ⟨htouches, hkey⟩ := hedge.mp hkey
            rw [hnode _ fun heq => htouches (.inr heq)]
            exact h.target hkey
          mem_keysAt := by
            intro other direction key
            have hnear : key.near direction = id → key.Touches id := by
              cases direction
              · exact .inl
              · exact .inr
            have hbare : (g.bare id).hasEdge key = g.hasEdge key := rfl
            rw [(cuts_removeNode hid).mem_keysAt, mem_keysAt_bare, h.mem_touching, h.mem_keysAt, hbare, hedge]
            -- At the node itself nothing is left; elsewhere what touches it was unlinked.
            constructor
            · rintro ⟨⟨-, hkey, hend⟩, hnot⟩
              exact ⟨⟨fun htouches => hnot ⟨⟨hkey, htouches⟩, hkey, hend⟩, hkey⟩, hend⟩
            · rintro ⟨⟨htouches, hkey⟩, rfl⟩
              exact ⟨⟨fun heq => htouches (hnear heq), hkey, rfl⟩, fun hall => htouches hall.1.2⟩ }

end IsIndexed

/-! ## The edges at a node -/

theorem edgeList_eq_filterMap (g : Graph) : g.edgeList = g.edges.keys.filterMap g.edge? := by
  rw [edgeList, values_eq_map, ← Std.TreeMap.map_fst_toList_eq_keys, List.filterMap_map,
    ← List.filterMap_eq_map]
  refine List.filterMap_congr fun entry hentry => ?_
  exact (Std.TreeMap.mem_toList_iff_getElem?_eq_some.mp hentry).symm

namespace IsIndexed

variable {g : Graph}

theorem keysAt_eq (h : g.IsIndexed) (id : String) (direction : Direction) :
    g.keysAt id direction = g.edges.keys.filter fun key => key.near direction = id := by
  have hordered : g.edges.keys.Pairwise fun a b => compare a b = .lt := Std.TreeMap.ordered_keys
  refine eq_of_ascending (g.ordered_keysAt id direction) (hordered.filter _) fun key => ?_
  rw [h.mem_keysAt, List.mem_filter, decide_eq_true_eq, Std.TreeMap.mem_keys]
  rfl

/-- The edges at a node are those that a scan of all edges finds, in the same order. -/
theorem adjacent_eq (h : g.IsIndexed) (id : String) (direction : Direction) :
    g.adjacent id direction = g.edgeList.filter fun e => e.key.near direction = id := by
  rw [adjacent, h.keysAt_eq, edgeList_eq_filterMap, List.filterMap_filter, List.filter_filterMap]
  refine List.filterMap_congr fun key _ => ?_
  cases he : g.edge? key with
  | none => simp
  | some e =>
      have hkey := h.key_eq he
      simp only [decide_eq_true_eq, Option.filter_some, hkey]

end IsIndexed

/-! ## Graphs that are told apart -/

/-- The graphs have the same nodes and edges, and the same edges at each node. -/
structure Same (g g' : Graph) : Prop where
  nodeList : g.nodeList = g'.nodeList
  edgeList : g.edgeList = g'.edgeList
  keysAt : ∀ id direction, g.keysAt id direction = g'.keysAt id direction

/-- Indexed graphs are told apart by what is found in them. -/
theorem IsIndexed.same {g g' : Graph} (h : g.IsIndexed) (h' : g'.IsIndexed)
    (hnode : ∀ id, g.node? id = g'.node? id) (hedge : ∀ key, g.edge? key = g'.edge? key) : g.Same g' := by
  have hnodes : g.nodes.Equiv g'.nodes := Std.TreeMap.Equiv.of_forall_constGet?_eq hnode
  have hedges : g.edges.Equiv g'.edges := Std.TreeMap.Equiv.of_forall_constGet?_eq hedge
  constructor
  case nodeList => rw [Graph.nodeList, Graph.nodeList, values_eq_map, values_eq_map, hnodes.toList_eq]
  case edgeList => rw [Graph.edgeList, Graph.edgeList, values_eq_map, values_eq_map, hedges.toList_eq]
  case keysAt =>
    intro id direction
    rw [h.keysAt_eq, h'.keysAt_eq, hedges.keys_eq]

end Graph

end ProgramGraph
