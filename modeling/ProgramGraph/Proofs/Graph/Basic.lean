import ProgramGraph.Graph.Basic
import ProgramGraph.Proofs.Map

set_option autoImplicit false

/-! # What a graph has

A graph is sound if its nodes and edges stand where their identifiers and keys say, and both ends
of every edge are nodes. Putting nodes and edges in keeps it sound, and loses nothing.
-/

namespace ProgramGraph.Graph

/-- Nodes and edges are in their places, and no edge dangles. -/
structure IsSound (g : Graph) : Prop where
  id_eq : ∀ {id n}, g.node? id = some n → n.id = id
  key_eq : ∀ {key e}, g.edge? key = some e → e.key = key
  source : ∀ {key}, g.hasEdge key = true → g.hasNode key.source = true
  target : ∀ {key}, g.hasEdge key = true → g.hasNode key.target = true

theorem hasNode_eq (g : Graph) (id : String) : g.hasNode id = (g.node? id).isSome :=
  Std.TreeMap.isSome_getElem?_eq_contains.symm

theorem hasEdge_eq (g : Graph) (key : EdgeKey) : g.hasEdge key = (g.edge? key).isSome :=
  Std.TreeMap.isSome_getElem?_eq_contains.symm

theorem hasNode_iff {g : Graph} {id : String} : g.hasNode id = true ↔ ∃ n, g.node? id = some n := by
  rw [hasNode_eq, Option.isSome_iff_exists]

theorem hasEdge_iff {g : Graph} {key : EdgeKey} : g.hasEdge key = true ↔ ∃ e, g.edge? key = some e := by
  rw [hasEdge_eq, Option.isSome_iff_exists]

theorem node?_eq_none_iff {g : Graph} {id : String} : g.node? id = none ↔ g.hasNode id = false := by
  rw [hasNode_eq, Option.isSome_eq_false_iff, Option.isNone_iff_eq_none]

theorem edge?_eq_none_iff {g : Graph} {key : EdgeKey} : g.edge? key = none ↔ g.hasEdge key = false := by
  rw [hasEdge_eq, Option.isSome_eq_false_iff, Option.isNone_iff_eq_none]

theorem isSound_empty : IsSound ∅ where
  id_eq h := by cases h
  key_eq h := by cases h
  source h := by cases h
  target h := by cases h

/-! ## Putting in -/

@[simp] theorem node?_addNode (g : Graph) (n : Node) (id : String) :
    (g.addNode n).node? id = if id = n.id then some n else g.node? id :=
  getElem?_inserted g.nodes n.id n id

@[simp] theorem edge?_addNode (g : Graph) (n : Node) (key : EdgeKey) :
    (g.addNode n).edge? key = g.edge? key := rfl

@[simp] theorem hasEdge_addNode (g : Graph) (n : Node) (key : EdgeKey) :
    (g.addNode n).hasEdge key = g.hasEdge key := rfl

@[simp] theorem hasNode_addNode (g : Graph) (n : Node) (id : String) :
    (g.addNode n).hasNode id = (decide (id = n.id) || g.hasNode id) := by
  rw [hasNode_eq, hasNode_eq, node?_addNode]
  by_cases h : id = n.id <;> simp [h]

theorem hasNode_addNode_iff {g : Graph} {n : Node} {id : String} :
    (g.addNode n).hasNode id = true ↔ id = n.id ∨ g.hasNode id = true := by
  rw [hasNode_addNode, Bool.or_eq_true, decide_eq_true_eq]

/-- A found node is the one that was put in, or was there before. -/
theorem node?_addNode_cases {g : Graph} {n m : Node} {id : String} (h : (g.addNode n).node? id = some m) :
    (id = n.id ∧ m = n) ∨ g.node? id = some m := by
  rw [node?_addNode] at h
  split at h
  · rename_i hid
    exact .inl ⟨hid, (Option.some.inj h).symm⟩
  · exact .inr h

/-- An edge between two nodes is put in and changes nothing else. -/
structure Joins (g : Graph) (e : Edge) (g' : Graph) : Prop where
  node? : ∀ id, g'.node? id = g.node? id
  edge? : ∀ key, g'.edge? key = if key = e.key then some e else g.edge? key

namespace Joins

variable {g g' : Graph} {e : Edge}

theorem hasNode (h : Joins g e g') (id : String) : g'.hasNode id = g.hasNode id := by
  rw [hasNode_eq, hasNode_eq, h.node?]

theorem hasEdge (h : Joins g e g') (key : EdgeKey) :
    g'.hasEdge key = (decide (key = e.key) || g.hasEdge key) := by
  rw [hasEdge_eq, hasEdge_eq, h.edge?]
  by_cases hkey : key = e.key <;> simp [hkey]

theorem hasEdge_iff (h : Joins g e g') {key : EdgeKey} :
    g'.hasEdge key = true ↔ key = e.key ∨ g.hasEdge key = true := by
  rw [h.hasEdge, Bool.or_eq_true, decide_eq_true_eq]

/-- A found edge is the one that was put in, or was there before. -/
theorem edge?_cases (h : Joins g e g') {key : EdgeKey} {d : Edge} (hd : g'.edge? key = some d) :
    (key = e.key ∧ d = e) ∨ g.edge? key = some d := by
  rw [h.edge?] at hd
  split at hd
  · rename_i hkey
    exact .inl ⟨hkey, (Option.some.inj hd).symm⟩
  · exact .inr hd

end Joins

theorem addEdge_eq {g : Graph} {e : Edge} (hsource : g.hasNode e.source = true)
    (htarget : g.hasNode e.target = true) : ∃ g', g.addEdge e = .ok g' ∧ Joins g e g' := by
  let g' := { g with
    edges := g.edges.insert e.key e
    outgoing := g.outgoing.link e.source e.key
    incoming := g.incoming.link e.target e.key }
  have hadd : g.addEdge e = .ok g' := by simp [addEdge, hsource, htarget, g']
  exact ⟨g', hadd, fun _ => rfl, getElem?_inserted g.edges e.key e⟩

/-- What `attach` does to an edge between two nodes. -/
theorem joins_attach {g : Graph} {e : Edge} (hsource : g.hasNode e.source = true)
    (htarget : g.hasNode e.target = true) : Joins g e (g.attach e) := by
  obtain ⟨g', hadd, hjoins⟩ := addEdge_eq hsource htarget
  rw [attach, hadd]
  exact hjoins

/-- An edge with a missing end is left out. -/
theorem attach_cases (g : Graph) (e : Edge) :
    g.attach e = g ∨
      (g.hasNode e.source = true ∧ g.hasNode e.target = true ∧ Joins g e (g.attach e)) := by
  by_cases hsource : g.hasNode e.source = true
  · by_cases htarget : g.hasNode e.target = true
    · exact .inr ⟨hsource, htarget, joins_attach hsource htarget⟩
    · left
      simp [attach, addEdge, hsource, htarget]
  · left
    simp [attach, addEdge, hsource]

@[simp] theorem node?_attach (g : Graph) (e : Edge) (id : String) : (g.attach e).node? id = g.node? id := by
  rcases attach_cases g e with h | ⟨-, -, h⟩
  · rw [h]
  · exact h.node? id

@[simp] theorem hasNode_attach (g : Graph) (e : Edge) (id : String) :
    (g.attach e).hasNode id = g.hasNode id := by
  rw [hasNode_eq, hasNode_eq, node?_attach]

theorem hasEdge_attach (g : Graph) (e : Edge) (key : EdgeKey) :
    (g.attach e).hasEdge key = true ↔
      (e.key = key ∧ g.hasNode e.source = true ∧ g.hasNode e.target = true) ∨ g.hasEdge key = true := by
  rcases attach_cases g e with h | ⟨hsource, htarget, hjoins⟩
  · rw [h]
    constructor
    · exact .inr
    · rintro (⟨rfl, hsource, htarget⟩ | hkey)
      · rw [← h, (joins_attach hsource htarget).hasEdge]
        simp
      · exact hkey
  · rw [hjoins.hasEdge_iff, eq_comm]
    exact or_congr (iff_self_and.mpr fun _ => ⟨hsource, htarget⟩) Iff.rfl

/-! ## Putting in many nodes -/

theorem hasNode_addNodes (g : Graph) (nodes : List Node) (id : String) :
    (g.addNodes nodes).hasNode id = true ↔ (∃ n ∈ nodes, n.id = id) ∨ g.hasNode id = true := by
  induction nodes generalizing g with
  | nil => simp [addNodes]
  | cons n rest ih =>
      have hfirst : (g.addNodes (n :: rest)) = (g.addNode n).addNodes rest := rfl
      simp only [List.mem_cons, or_and_right, exists_or, exists_eq_left]
      rw [hfirst, ih, hasNode_addNode_iff, eq_comm, or_left_comm, or_assoc]

theorem hasEdge_addNodes (g : Graph) (nodes : List Node) (key : EdgeKey) :
    (g.addNodes nodes).hasEdge key = g.hasEdge key := by
  induction nodes generalizing g with
  | nil => rfl
  | cons n rest ih => exact (ih (g.addNode n)).trans (hasEdge_addNode g n key)

/-- A found node is one of those that were put in, or was there before. -/
theorem node?_addNodes_cases {nodes : List Node} {g : Graph} {id : String} {n : Node}
    (h : (g.addNodes nodes).node? id = some n) : n ∈ nodes ∨ g.node? id = some n := by
  induction nodes generalizing g with
  | nil => exact .inr h
  | cons m rest ih =>
      rcases ih (g := g.addNode m) h with hrest | hnext
      · exact .inl (List.mem_cons_of_mem _ hrest)
      · rcases node?_addNode_cases hnext with ⟨-, rfl⟩ | hold
        · exact .inl List.mem_cons_self
        · exact .inr hold

/-! ## Soundness is kept -/

namespace IsSound

variable {g g' : Graph}

theorem addNode (h : g.IsSound) (n : Node) : (g.addNode n).IsSound where
  id_eq := by
    intro id m hm
    rcases node?_addNode_cases hm with ⟨rfl, rfl⟩ | hm
    · rfl
    · exact h.id_eq hm
  key_eq := h.key_eq
  source hkey := by rw [hasNode_addNode, h.source hkey, Bool.or_true]
  target hkey := by rw [hasNode_addNode, h.target hkey, Bool.or_true]

theorem joins (h : g.IsSound) {e : Edge} (hjoins : Joins g e g') (hsource : g.hasNode e.source = true)
    (htarget : g.hasNode e.target = true) : g'.IsSound where
  id_eq := by
    intro id n hn
    exact h.id_eq ((hjoins.node? id).symm.trans hn)
  key_eq := by
    intro key d hd
    rcases hjoins.edge?_cases hd with ⟨rfl, rfl⟩ | hd
    · rfl
    · exact h.key_eq hd
  source := by
    intro key hkey
    rw [hjoins.hasNode]
    rcases hjoins.hasEdge_iff.mp hkey with rfl | hkey
    · exact hsource
    · exact h.source hkey
  target := by
    intro key hkey
    rw [hjoins.hasNode]
    rcases hjoins.hasEdge_iff.mp hkey with rfl | hkey
    · exact htarget
    · exact h.target hkey

/-- The nodes of the list are those of the graph. -/
theorem mem_nodeList (h : g.IsSound) (n : Node) : n ∈ g.nodeList ↔ g.node? n.id = some n :=
  mem_values_iff Node.id h.id_eq n

/-- The edges of the list are those of the graph. -/
theorem mem_edgeList (h : g.IsSound) (e : Edge) : e ∈ g.edgeList ↔ g.edge? e.key = some e :=
  mem_values_iff Edge.key h.key_eq e

/-- The keys of the list are those of the graph. -/
theorem mem_map_key (h : g.IsSound) (key : EdgeKey) :
    key ∈ g.edgeList.map Edge.key ↔ g.hasEdge key = true := by
  rw [List.mem_map, hasEdge_eq, Option.isSome_iff_exists]
  constructor
  · rintro ⟨e, he, rfl⟩
    exact ⟨e, (h.mem_edgeList e).mp he⟩
  · rintro ⟨e, he⟩
    have hkey := h.key_eq he
    exact ⟨e, (h.mem_edgeList e).mpr (hkey.symm ▸ he), hkey⟩

end IsSound

/-! ## Growing -/

/-- Nodes and edges are there in the other graph too. -/
structure Extends (g g' : Graph) : Prop where
  hasNode : ∀ {id}, g.hasNode id = true → g'.hasNode id = true
  hasEdge : ∀ {key}, g.hasEdge key = true → g'.hasEdge key = true

namespace Extends

variable {g g' g'' : Graph}

theorem refl (g : Graph) : g.Extends g := ⟨id, id⟩

theorem trans (h : g.Extends g') (h' : g'.Extends g'') : g.Extends g'' :=
  ⟨fun hid => h'.hasNode (h.hasNode hid), fun hkey => h'.hasEdge (h.hasEdge hkey)⟩

theorem addNode (g : Graph) (n : Node) : g.Extends (g.addNode n) :=
  ⟨fun h => by rw [hasNode_addNode, h, Bool.or_true], fun h => h⟩

theorem joins {e : Edge} (h : Joins g e g') : g.Extends g' :=
  ⟨fun hid => (h.hasNode _).trans hid, fun hkey => by rw [h.hasEdge, hkey, Bool.or_true]⟩

theorem attach (g : Graph) (e : Edge) : g.Extends (g.attach e) := by
  rcases attach_cases g e with heq | ⟨-, -, hjoins⟩
  · rw [heq]
    exact refl g
  · exact joins hjoins

/-- Steps that extend the graph extend it together. -/
theorem foldl {α : Type} {step : Graph → α → Graph} (h : ∀ g a, Extends g (step g a)) (items : List α)
    (g : Graph) : g.Extends (items.foldl step g) := by
  induction items generalizing g with
  | nil => exact refl g
  | cons a rest ih => exact (h g a).trans (ih _)

end Extends

/-! ## Reaching -/

/-- Along edges the node is reached from one of the roots. -/
inductive Reaches (g : Graph) (roots : String → Prop) : String → Prop where
  | root {id : String} (h : roots id) : Reaches g roots id
  | step (key : EdgeKey) (h : Reaches g roots key.source) (hkey : g.hasEdge key = true) :
      Reaches g roots key.target

theorem Reaches.extends {g g' : Graph} {roots : String → Prop} {id : String} (h : g.Reaches roots id)
    (hext : g.Extends g') : g'.Reaches roots id := by
  induction h with
  | root h => exact .root h
  | step key _ hkey ih => exact .step key ih (hext.hasEdge hkey)

/-- Roots that are reached from others can be left out. -/
theorem Reaches.trans {g : Graph} {roots others : String → Prop} {id : String} (h : g.Reaches roots id)
    (hroots : ∀ r, roots r → g.Reaches others r) : g.Reaches others id := by
  induction h with
  | root h => exact hroots _ h
  | step key _ hkey ih => exact .step key ih hkey

end ProgramGraph.Graph
