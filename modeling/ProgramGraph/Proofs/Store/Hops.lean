import ProgramGraph.Proofs.Graph.Reachable
import ProgramGraph.Proofs.Graph.Walk
import ProgramGraph.Proofs.Store.Content

set_option autoImplicit false

/-! # What lies within a number of hops

A load answers with the graph of what lies within a number of hops of a root, along stored edges and
through stored nodes (`Content.Within`). The nodes and all edges between them are determined by that
(`Content.IsLoaded`), so two loads come to the same if the same nodes lie within their depths
(`Content.Loads.same_iff`). A load puts its graph together from the nodes within the depth and the
edges that leave them, dangling ones among these (`Content.loads_ofFound`).
-/

namespace ProgramGraph

/-! ## Hops -/

namespace Content

variable {c : Content} {root : String}

/-- A stored edge leads from one end to the other. -/
def Leads (c : Content) (a b : String) : Prop :=
  ∃ e, c.edge? e.key = some e ∧ e.source = a ∧ e.target = b

/-- A stored root and so many hops along stored edges, each to a stored node. -/
inductive Hops (c : Content) (root : String) : Nat → String → Prop where
  | root (stored : c.hasNode root = true) : Hops c root 0 root
  | step {n : Nat} {a b : String} (before : Hops c root n a) (leads : c.Leads a b)
      (stored : c.hasNode b = true) : Hops c root (n + 1) b

/-- The node lies at most so many hops from the root. -/
def Within (c : Content) (root : String) (depth : Nat) (id : String) : Prop :=
  ∃ n ≤ depth, c.Hops root n id

theorem Hops.hasNode {n : Nat} {id : String} (h : c.Hops root n id) : c.hasNode id = true := by
  cases h with
  | root stored => exact stored
  | step _ _ stored => exact stored

theorem hops_zero {id : String} : c.Hops root 0 id ↔ id = root ∧ c.hasNode root = true := by
  constructor
  · intro h
    cases h with
    | root stored => exact ⟨rfl, stored⟩
  · rintro ⟨rfl, stored⟩
    exact .root stored

theorem hops_succ {n : Nat} {id : String} :
    c.Hops root (n + 1) id ↔ c.hasNode id = true ∧ ∃ a, c.Hops root n a ∧ c.Leads a id := by
  constructor
  · intro h
    cases h with
    | step before leads stored => exact ⟨stored, _, before, leads⟩
  · rintro ⟨stored, a, before, leads⟩
    exact .step before leads stored

/-- Whoever has gone some hops has gone fewer before. -/
theorem Hops.earlier {n m : Nat} {id : String} (h : c.Hops root n id) (hm : m ≤ n) :
    ∃ a, c.Hops root m a := by
  induction h with
  | root stored =>
      obtain rfl := Nat.le_zero.mp hm
      exact ⟨root, .root stored⟩
  | step before leads stored ih =>
      obtain rfl | hlt := Nat.eq_or_lt_of_le hm
      · exact ⟨_, .step before leads stored⟩
      · exact ih (Nat.le_of_lt_succ hlt)

theorem Within.hasNode {depth : Nat} {id : String} (h : c.Within root depth id) :
    c.hasNode id = true := by
  obtain ⟨n, -, hops⟩ := h
  exact hops.hasNode

theorem within_root {depth : Nat} (h : c.hasNode root = true) : c.Within root depth root :=
  ⟨0, Nat.zero_le _, .root h⟩

/-- A stored node leads to the other, which need not be stored. -/
def Passes (c : Content) (a b : String) : Prop := c.hasNode a = true ∧ c.Leads a b

/-- Hops are the steps of a walk that ends at a stored node. -/
theorem hops_iff {n : Nat} {id : String} :
    c.Hops root n id ↔ c.hasNode id = true ∧ Walk c.Passes root n id := by
  constructor
  · intro h
    refine ⟨h.hasNode, ?_⟩
    induction h with
    | root => exact .start
    | step before leads _ ih => exact .step ih ⟨before.hasNode, leads⟩
  · rintro ⟨stored, walk⟩
    induction walk with
    | start => exact .root stored
    | step _ passes ih => exact .step (ih passes.1) passes.2 stored

theorem within_iff {depth : Nat} {id : String} :
    c.Within root depth id ↔ c.hasNode id = true ∧ ∃ n, n ≤ depth ∧ Walk c.Passes root n id := by
  simp only [Within, hops_iff]
  constructor
  · rintro ⟨n, hn, stored, walk⟩
    exact ⟨stored, n, hn, walk⟩
  · rintro ⟨stored, n, hn, walk⟩
    exact ⟨n, hn, stored, walk⟩

/-- Nothing is within any number of hops of a root that is not stored. -/
theorem not_within {depth : Nat} {id : String} (h : c.hasNode root = false) :
    ¬c.Within root depth id := by
  rintro ⟨n, -, hops⟩
  obtain ⟨a, ha⟩ := hops.earlier (Nat.zero_le n)
  rw [(hops_zero.mp ha).2] at h
  cases h

end Content

/-! ## Loaded graphs -/

/-- The graph of the nodes at most so many hops from a root, with every stored edge between two of
them. -/
structure Content.IsLoaded (c : Content) (root : String) (depth : Nat) (g : Graph) : Prop
    extends g.IsIndexed where
  node?_iff : ∀ id n, g.node? id = some n ↔ c.node? id = some n ∧ c.Within root depth id
  edge?_iff : ∀ key e, g.edge? key = some e ↔
    c.edge? key = some e ∧ c.Within root depth key.source ∧ c.Within root depth key.target

/-- What is to be loaded leaves nothing open. -/
theorem Content.IsLoaded.same {c : Content} {root : String} {depth : Nat} {g g' : Graph}
    (h : c.IsLoaded root depth g) (h' : c.IsLoaded root depth g') : g.Same g' :=
  h.toIsIndexed.same h'.toIsIndexed
    (fun id => Option.ext fun n => (h.node?_iff id n).trans (h'.node?_iff id n).symm)
    fun key => Option.ext fun e => (h.edge?_iff key e).trans (h'.edge?_iff key e).symm

namespace Content

/-- The nodes and edges of the graph are those of the content. -/
structure Includes (c : Content) (g : Graph) : Prop where
  node? : ∀ {id n}, g.node? id = some n → c.node? id = some n
  edge? : ∀ {key e}, g.edge? key = some e → c.edge? key = some e

namespace Includes

variable {c : Content} {g : Graph}

theorem empty (c : Content) : c.Includes ∅ := ⟨fun h => (nomatch h), fun h => (nomatch h)⟩

theorem addNode (h : c.Includes g) {n : Node} (hn : c.node? n.id = some n) : c.Includes (g.addNode n) where
  node? := by
    intro id m hm
    rcases Graph.node?_addNode_cases hm with ⟨rfl, rfl⟩ | hm
    · exact hn
    · exact h.node? hm
  edge? hm := h.edge? hm

theorem attach (h : c.Includes g) {e : Edge} (he : c.edge? e.key = some e) : c.Includes (g.attach e) where
  node? hm := h.node? (g.node?_attach e _ ▸ hm)
  edge? := by
    intro key d hd
    rcases g.attach_cases e with hsame | ⟨-, -, hjoins⟩
    · exact h.edge? (hsame ▸ hd)
    · rcases hjoins.edge?_cases hd with ⟨rfl, rfl⟩ | hd
      · exact he
      · exact h.edge? hd

theorem node?_iff (h : c.Includes g) {id : String} {n : Node} :
    g.node? id = some n ↔ c.node? id = some n ∧ g.hasNode id = true := by
  constructor
  · exact fun hn => ⟨h.node? hn, Graph.hasNode_iff.mpr ⟨n, hn⟩⟩
  · rintro ⟨hn, hhas⟩
    obtain ⟨m, hm⟩ := Graph.hasNode_iff.mp hhas
    rw [hm, ← h.node? hm, hn]

theorem edge?_iff (h : c.Includes g) {key : EdgeKey} {e : Edge} :
    g.edge? key = some e ↔ c.edge? key = some e ∧ g.hasEdge key = true := by
  constructor
  · exact fun he => ⟨h.edge? he, Graph.hasEdge_iff.mpr ⟨e, he⟩⟩
  · rintro ⟨he, hhas⟩
    obtain ⟨d, hd⟩ := Graph.hasEdge_iff.mp hhas
    rw [hd, ← h.edge? hd, he]

end Includes

variable {c : Content} {root : String} {depth : Nat} {nodes : List Node} {edges : List Edge}

/-- Nodes within the depth and the edges that leave them are put together. -/
theorem isLoaded_ofFound (hroot : c.hasNode root = true)
    (hnodes : ∀ n, n ∈ nodes ↔ c.node? n.id = some n ∧ c.Within root depth n.id)
    (hedges : ∀ e, e ∈ edges ↔ c.edge? e.key = some e ∧ c.Within root depth e.source) :
    ∃ g, Graph.ofFound root nodes edges = .ok g ∧ c.IsLoaded root depth g := by
  obtain ⟨n, hn⟩ := Option.isSome_iff_exists.mp hroot
  have hmem : n ∈ nodes := by
    obtain rfl := c.id_eq hn
    exact (hnodes n).mpr ⟨hn, within_root hroot⟩
  have hnotEmpty : nodes.isEmpty = false := List.isEmpty_eq_false_iff_exists_mem.mpr ⟨n, hmem⟩
  let bare := (∅ : Graph).addNodes nodes
  let g := edges.foldl Graph.attach bare
  have hg : Graph.ofFound root nodes edges = .ok g := by
    rw [Graph.ofFound, hnotEmpty]
    rfl
  have hincludes : c.Includes g :=
    List.foldlRecOn edges Graph.attach
      (List.foldlRecOn nodes Graph.addNode (Includes.empty c) fun _ h m hm => h.addNode ((hnodes m).mp hm).1)
      fun _ h e he => h.attach ((hedges e).mp he).1
  -- The nodes are all there before the first edge comes, so they alone decide which edges stay.
  have hbare : ∀ id, bare.hasNode id = true ↔ c.Within root depth id := by
    intro id
    rw [Graph.hasNode_addNodes]
    constructor
    · rintro (⟨m, hm, rfl⟩ | h)
      · exact ((hnodes m).mp hm).2
      · cases h
    · intro hwithin
      obtain ⟨m, hm⟩ := Option.isSome_iff_exists.mp hwithin.hasNode
      obtain rfl := c.id_eq hm
      exact .inl ⟨m, (hnodes m).mpr ⟨hm, hwithin⟩, rfl⟩
  refine ⟨g, hg, List.foldlRecOn edges Graph.attach (Graph.isIndexed_empty.addNodes nodes)
    fun _ h e _ => h.attach e, ?_, ?_⟩
  · intro id n
    rw [hincludes.node?_iff, Graph.hasNode_attachAll, hbare]
  · intro key e
    rw [hincludes.edge?_iff, Graph.hasEdge_attachAll]
    refine and_congr_right fun he => ?_
    simp only [hbare]
    obtain rfl := c.key_eq he
    constructor
    · rintro (⟨d, -, hkey, hends⟩ | h)
      · rw [← hkey]
        exact hends
      · rw [Graph.hasEdge_addNodes] at h
        cases h
    · intro hends
      exact .inl ⟨e, (hedges e).mpr ⟨he, hends.1⟩, rfl, hends⟩

/-- What a load comes to: a missing root is reported, and a stored one gives its graph. -/
structure Loads (c : Content) (root : String) (depth : Nat) (outcome : Outcome Graph) : Prop where
  missing : c.hasNode root = false → outcome = .error (.nodeMissing root)
  stored : c.hasNode root = true → ∃ g, outcome = .ok g ∧ c.IsLoaded root depth g

/-- **What was found within the depth** is what a load comes to. -/
theorem loads_ofFound (hnodes : ∀ n, n ∈ nodes ↔ c.node? n.id = some n ∧ c.Within root depth n.id)
    (hedges : ∀ e, e ∈ edges ↔ c.edge? e.key = some e ∧ c.Within root depth e.source) :
    c.Loads root depth (Graph.ofFound root nodes edges) where
  missing hroot := by
    cases nodes with
    | nil => rfl
    | cons n rest => exact absurd ((hnodes n).mp List.mem_cons_self).2 (not_within hroot)
  stored hroot := isLoaded_ofFound hroot hnodes hedges

/-- The nodes with some identifiers. -/
theorem mem_filterMap_node? {ids : List String} {n : Node} :
    n ∈ ids.filterMap c.node? ↔ c.node? n.id = some n ∧ n.id ∈ ids := by
  rw [List.mem_filterMap]
  constructor
  · rintro ⟨id, hid, hn⟩
    obtain rfl := c.id_eq hn
    exact ⟨hn, hid⟩
  · exact fun ⟨hn, hid⟩ => ⟨n.id, hid, hn⟩

end Content

/-! ## Loads that come to the same -/

/-- Two loads come to the same. -/
inductive SameLoad : Outcome Graph → Outcome Graph → Prop where
  | failed (failure : Failure) : SameLoad (.error failure) (.error failure)
  | loaded {g g' : Graph} (same : g.Same g') : SameLoad (.ok g) (.ok g')

namespace Content

variable {c : Content} {root : String} {depth depth' : Nat}

theorem IsLoaded.mem_nodeList {g : Graph} (h : c.IsLoaded root depth g) {n : Node} :
    n ∈ g.nodeList ↔ c.node? n.id = some n ∧ c.Within root depth n.id := by
  rw [h.toIsSound.mem_nodeList, h.node?_iff]

/-- Loads within two depths come to the same if the same nodes lie within them. -/
theorem Loads.same_iff {x y : Outcome Graph} (hx : c.Loads root depth x) (hy : c.Loads root depth' y) :
    SameLoad x y ↔ ∀ id, c.Within root depth id ↔ c.Within root depth' id := by
  cases hroot : c.hasNode root with
  | false =>
      rw [hx.missing hroot, hy.missing hroot]
      exact iff_of_true (.failed _) fun id => iff_of_false (not_within hroot) (not_within hroot)
  | true =>
      obtain ⟨g, rfl, hg⟩ := hx.stored hroot
      obtain ⟨g', rfl, hg'⟩ := hy.stored hroot
      constructor
      · rintro (_ | ⟨hsame⟩) id
        cases hnode : c.node? id with
        | none =>
            -- A node that is not stored lies within no depth.
            have hmissing : ∀ d, ¬c.Within root d id := fun d hwithin => by
              have hstored := hwithin.hasNode
              rw [hasNode, hnode] at hstored
              cases hstored
            exact iff_of_false (hmissing depth) (hmissing depth')
        | some n =>
            obtain rfl := c.id_eq hnode
            have hmem : n ∈ g.nodeList ↔ n ∈ g'.nodeList := by rw [hsame.nodeList]
            rwa [hg.mem_nodeList, hg'.mem_nodeList, and_iff_right hnode, and_iff_right hnode] at hmem
      · intro hwithin
        refine .loaded (hg.same ⟨hg'.toIsIndexed, fun id n => ?_, fun key e => ?_⟩)
        · rw [hg'.node?_iff, hwithin]
        · rw [hg'.edge?_iff, hwithin, hwithin]

/-- A root that leads to itself alone leads no further. -/
theorem Hops.eq_root {n : Nat} {id : String} (h : c.Hops root n id) (hone : ∀ id, c.Hops root 1 id → id = root) :
    id = root := by
  induction h with
  | root => rfl
  | @step n a b before leads stored ih =>
      subst ih
      obtain ⟨_, hroot⟩ := before.earlier (Nat.zero_le n)
      exact hone b (.step (.root (hops_zero.mp hroot).2) leads stored)

/-- No depth makes a difference if and only if the root leads to itself alone. -/
theorem within_zero_iff (hdepth : 0 < depth) :
    (∀ id, c.Within root 0 id ↔ c.Within root depth id) ↔ ∀ id, c.Hops root 1 id → id = root := by
  constructor
  · intro hsame id hops
    obtain ⟨n, hn, hops⟩ := (hsame id).mpr ⟨1, hdepth, hops⟩
    obtain rfl := Nat.le_zero.mp hn
    exact (hops_zero.mp hops).1
  · intro hone id
    constructor
    · rintro ⟨n, hn, hops⟩
      exact ⟨n, Nat.le_trans hn (Nat.zero_le _), hops⟩
    · rintro ⟨n, -, hops⟩
      obtain rfl := hops.eq_root hone
      exact within_root hops.hasNode

end Content

end ProgramGraph
