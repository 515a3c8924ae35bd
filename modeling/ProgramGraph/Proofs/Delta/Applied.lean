import ProgramGraph.Proofs.Delta.Between
import ProgramGraph.Proofs.Graph.Reachable
import ProgramGraph.Proofs.Node.Equality

set_option autoImplicit false

/-! # A graph after a change set

A change set takes edges out, then nodes, and then puts nodes and edges in. Each of these phases is
said at once: what it leaves under an identifier and under a key. With a deleted node go edges that
the change set does not list. Between two graphs none of them is wanted, because an edge of the new
graph has both its ends there, and for the same reason no edge that comes is left out.
-/

namespace ProgramGraph

namespace Graph

/-- The two graphs have nodes of equal content under the same identifiers, and edges with the same
keys. -/
structure Matches (g other : Graph) : Prop where
  hasNode : ∀ id, g.hasNode id = other.hasNode id
  sameContent : ∀ {id m n}, g.node? id = some m → other.node? id = some n → m.sameContent n = true
  hasEdge : ∀ key, g.hasEdge key = other.hasEdge key

/-! ## One phase after the other -/

variable {g : Graph}

/-- Edges are taken out one by one. -/
theorem cuts_removeSelected {selectors : List EdgeSelector} (g : Graph)
    (hexact : ∀ s ∈ selectors, ∃ key, s = EdgeSelector.exact key) :
    ∃ keys, Cuts g keys (selectors.foldl Delta.removeSelected g) ∧
      ∀ key, key ∈ keys ↔ selectors.contains (.exact key) = true := by
  induction selectors generalizing g with
  | nil => exact ⟨[], .refl g, fun _ => by simp⟩
  | cons s rest ih =>
      obtain ⟨first, rfl⟩ := hexact s List.mem_cons_self
      obtain ⟨keys, hcuts, hkeys⟩ := ih (g.removeEdge first) fun d hd =>
        hexact d (List.mem_cons_of_mem _ hd)
      refine ⟨first :: keys, (Cuts.removeEdge g first).trans hcuts, fun key => ?_⟩
      rw [List.mem_cons, hkeys, List.contains_cons, Bool.or_eq_true, beq_iff_eq, EdgeSelector.exact_inj]

/-- Nodes are taken out one by one, with the edges that touch one of them. -/
theorem removeNodes_spec (h : g.IsIndexed) (ids : List String) :
    (ids.foldl removeNode g).IsIndexed ∧
      (∀ id, (ids.foldl removeNode g).node? id = if id ∈ ids then none else g.node? id) ∧
      ∀ key, (ids.foldl removeNode g).edge? key =
        if ∃ id ∈ ids, key.Touches id then none else g.edge? key := by
  induction ids generalizing g with
  | nil => exact ⟨h, fun _ => by simp, fun _ => by simp⟩
  | cons first rest ih =>
      obtain ⟨hindexed, hnode, hedge⟩ := ih (h.removeNode first)
      refine ⟨hindexed, fun id => (hnode id).trans ?_, fun key => (hedge key).trans ?_⟩
      · rw [node?_removeNode]
        by_cases hfirst : id = first <;> by_cases hrest : id ∈ rest <;> simp [hfirst, hrest]
      · rw [h.edge?_removeNode, ← ite_or]
        simp only [List.exists_mem_cons_iff, or_comm]

/-- Nodes are put in one by one. Of those with an identifier the last stays. -/
theorem node?_addNodes (g : Graph) (nodes : List Node) (id : String) :
    (g.addNodes nodes).node? id = (nodes.reverse.find? fun n => n.id = id).or (g.node? id) := by
  induction nodes generalizing g with
  | nil => rfl
  | cons n rest ih =>
      have hfirst : g.addNodes (n :: rest) = (g.addNode n).addNodes rest := rfl
      rw [hfirst, ih, node?_addNode, List.reverse_cons, List.find?_append, Option.or_assoc]
      by_cases hid : n.id = id
      · simp [hid]
      · simp [hid, Ne.symm hid]

/-- What does not come stays. -/
theorem node?_addNodes_of_ne (g : Graph) {nodes : List Node} {id : String} (h : ∀ n ∈ nodes, n.id ≠ id) :
    (g.addNodes nodes).node? id = g.node? id := by
  have hnone : nodes.reverse.find? (fun n => n.id = id) = none := by simpa using h
  rw [node?_addNodes, hnone, Option.none_or]

/-- Whatever is the only one that passes is found. -/
theorem find?_eq_of_unique {α : Type} {p : α → Prop} [DecidablePred p] {l : List α} {a : α} (ha : a ∈ l)
    (hp : p a) (hunique : ∀ b ∈ l, p b → b = a) : l.find? (fun b => p b) = some a := by
  cases hfind : l.find? (fun b => p b) with
  | none => simpa [hp] using List.find?_eq_none.mp hfind a ha
  | some b => rw [hunique b (List.mem_of_find?_eq_some hfind) (by simpa using List.find?_some hfind)]

/-- A node that comes is there, if no other comes with its identifier. -/
theorem node?_addNodes_of_mem (g : Graph) {nodes : List Node} {n : Node} (hn : n ∈ nodes)
    (hunique : ∀ m ∈ nodes, m.id = n.id → m = n) : (g.addNodes nodes).node? n.id = some n := by
  have hfound : nodes.reverse.find? (fun m => m.id = n.id) = some n :=
    find?_eq_of_unique (List.mem_reverse.mpr hn) rfl fun m hm => hunique m (List.mem_reverse.mp hm)
  rw [node?_addNodes, hfound, Option.some_or]

/-- Nodes that are listed with what is found under their identifiers are put in. What is found nowhere
among them stays. -/
theorem node?_addNodes_listed (g : Graph) {nodes : List Node} {found : String → Option Node}
    (hlisted : ∀ n, n ∈ nodes ↔ found n.id = some n) (hid : ∀ {id n}, found id = some n → n.id = id)
    (id : String) : (g.addNodes nodes).node? id = (found id).or (g.node? id) := by
  cases hn : found id with
  | none =>
      refine node?_addNodes_of_ne g ?_
      rintro n hmem rfl
      rw [(hlisted n).mp hmem] at hn
      cases hn
  | some n =>
      obtain rfl := hid hn
      refine node?_addNodes_of_mem g ((hlisted n).mpr hn) fun m hmem heq => ?_
      have hm := (hlisted m).mp hmem
      rw [heq, hn] at hm
      exact (Option.some.inj hm).symm

theorem edge?_addNodes (g : Graph) (nodes : List Node) (key : EdgeKey) :
    (g.addNodes nodes).edge? key = g.edge? key := by
  induction nodes generalizing g with
  | nil => rfl
  | cons n rest ih => exact (ih (g.addNode n)).trans (edge?_addNode g n key)

theorem node?_attachAll (g : Graph) (edges : List Edge) (id : String) :
    (edges.foldl attach g).node? id = g.node? id := by
  induction edges generalizing g with
  | nil => rfl
  | cons e rest ih => rw [List.foldl_cons, ih, node?_attach]

/-- An edge stays out if one of its ends is missing. -/
theorem edge?_attach (g : Graph) (e : Edge) (key : EdgeKey) :
    (g.attach e).edge? key =
      if e.key = key ∧ g.hasNode key.source ∧ g.hasNode key.target then some e else g.edge? key := by
  by_cases hends : g.hasNode e.source = true ∧ g.hasNode e.target = true
  · rw [(joins_attach hends.1 hends.2).edge?]
    by_cases hkey : key = e.key
    · subst hkey
      rw [if_pos rfl, if_pos ⟨rfl, hends⟩]
    · rw [if_neg hkey, if_neg fun h => hkey h.1.symm]
  · have hout : g.attach e = g := (attach_cases g e).resolve_right fun h => hends ⟨h.1, h.2.1⟩
    rw [hout, if_neg]
    rintro ⟨rfl, hends'⟩
    exact hends hends'

/-- Edges are put in one by one. Of those with a key the last stays, if its ends are there. -/
theorem edge?_attachAll (g : Graph) (edges : List Edge) (key : EdgeKey) :
    (edges.foldl attach g).edge? key =
      (if g.hasNode key.source ∧ g.hasNode key.target then edges.reverse.find? fun e => e.key = key
        else none).or (g.edge? key) := by
  induction edges generalizing g with
  | nil => simp
  | cons e rest ih =>
      rw [List.foldl_cons, ih, hasNode_attach, hasNode_attach, edge?_attach, List.reverse_cons,
        List.find?_append]
      by_cases hends : g.hasNode key.source = true ∧ g.hasNode key.target = true
      · rw [if_pos hends, if_pos hends, Option.or_assoc]
        by_cases hkey : e.key = key <;> simp [hkey, hends]
      · rw [if_neg hends, if_neg hends, if_neg fun h => hends h.2]

/-- Edges are put in one by one. What does not come stays, and nodes stay as they are. -/
theorem attachAll_spec {edges : List Edge}
    (h : ∀ e ∈ edges, g.hasNode e.source = true ∧ g.hasNode e.target = true) :
    (∀ id, (edges.foldl attach g).node? id = g.node? id) ∧
      (∀ key, (∀ e ∈ edges, e.key ≠ key) → (edges.foldl attach g).edge? key = g.edge? key) ∧
      ∀ e ∈ edges, (∀ d ∈ edges, d.key = e.key → d = e) → (edges.foldl attach g).edge? e.key = some e := by
  refine ⟨node?_attachAll g edges, fun key hother => ?_, fun e he hunique => ?_⟩
  · have hnone : edges.reverse.find? (fun e => e.key = key) = none := by simpa using hother
    rw [edge?_attachAll, hnone, ite_self, Option.none_or]
  · have hfound : edges.reverse.find? (fun d => d.key = e.key) = some e :=
      find?_eq_of_unique (List.mem_reverse.mpr he) rfl fun d hd =>
        hunique d (List.mem_reverse.mp hd)
    have hends : g.hasNode e.key.source = true ∧ g.hasNode e.key.target = true := h e he
    rw [edge?_attachAll, if_pos hends, hfound, Option.some_or]

/-- Edges that are listed with what is found under their keys are put in. What is found nowhere among
them stays. -/
theorem edge?_attachAll_listed {edges : List Edge} {found : EdgeKey → Option Edge}
    (hends : ∀ e ∈ edges, g.hasNode e.source = true ∧ g.hasNode e.target = true)
    (hlisted : ∀ e, e ∈ edges ↔ found e.key = some e) (hkey : ∀ {key e}, found key = some e → e.key = key)
    (key : EdgeKey) : (edges.foldl attach g).edge? key = (found key).or (g.edge? key) := by
  obtain ⟨-, hother, hcome⟩ := attachAll_spec hends
  cases he : found key with
  | none =>
      refine hother key ?_
      rintro e hmem rfl
      rw [(hlisted e).mp hmem] at he
      cases he
  | some e =>
      obtain rfl := hkey he
      refine hcome e ((hlisted e).mpr he) fun d hmem heq => ?_
      have hd := (hlisted d).mp hmem
      rw [heq, he] at hd
      exact (Option.some.inj hd).symm

end Graph

namespace Delta

variable {old new : Graph}

/-! ## Between two graphs -/

/-- The change set without the edges that come. -/
def withoutAddedEdges (d : Delta) : Delta := { d with addedEdges := [] }

/-- What is left of the old graph: the nodes and edges that the new graph has too. -/
theorem pruned_spec (hold : old.IsIndexed) (hnew : new.IsIndexed) :
    let pruned := (between old new).deletedNodes.toList.foldl Graph.removeNode
      ((between old new).deletedEdges.toList.foldl removeSelected old)
    (∀ id, pruned.node? id = if new.hasNode id then old.node? id else none) ∧
      ∀ key, pruned.edge? key = if new.hasEdge key then old.edge? key else none := by
  have hexact : ∀ s ∈ (between old new).deletedEdges.toList, ∃ key, s = EdgeSelector.exact key :=
    exact_of_mem_deletedEdges hold.toIsSound
  obtain ⟨keys, hcuts, hkeys⟩ := Graph.cuts_removeSelected old hexact
  simp only [contains_deletedEdges hold.toIsSound] at hkeys
  obtain ⟨-, hnode, hedge⟩ :=
    Graph.removeNodes_spec (hold.cuts hcuts) (between old new).deletedNodes.toList
  refine ⟨fun id => (hnode id).trans ?_, fun key => (hedge key).trans ?_⟩
  · simp only [mem_deletedNodes hold.toIsSound, hcuts.node?, Graph.hasNode_eq old]
    cases new.hasNode id <;> cases old.node? id <;> simp
  · rw [hcuts.edge?]
    cases hthere : new.hasEdge key with
    | true =>
        -- Both ends of the edge are nodes of the new graph, and those are not deleted.
        have hends : ¬∃ id, id ∈ (between old new).deletedNodes.toList ∧ key.Touches id := by
          rintro ⟨id, hid, htouches⟩
          exact hnew.not_touches ((mem_deletedNodes hold.toIsSound).mp hid).2 hthere htouches
        have hkept : key ∉ keys := fun hkey => by
          rw [hkeys, hthere] at hkey
          cases hkey.2
        rw [if_neg hends, if_neg hkept, if_pos rfl]
    | false =>
        have hgone : (if key ∈ keys then none else old.edge? key) = none := by
          simp only [hkeys, hthere, Graph.hasEdge_eq old]
          cases old.edge? key <;> simp
        rw [hgone, ite_self]
        rfl

/-- Before edges come, the nodes have the content of the new graph. -/
theorem node?_withoutAddedEdges (hold : old.IsIndexed) (hnew : new.IsIndexed)
    (hnumbers : ∀ n ∈ new.nodeList, n.properties.HasNumbers) (id : String) :
    match new.node? id with
    | some n => ∃ m, ((between old new).withoutAddedEdges.applyTo old).node? id = some m ∧
        m.sameContent n = true
    | none => ((between old new).withoutAddedEdges.applyTo old).node? id = none := by
  obtain ⟨hpruned, -⟩ := pruned_spec hold hnew
  let pruned := (between old new).deletedNodes.toList.foldl Graph.removeNode
    ((between old new).deletedEdges.toList.foldl removeSelected old)
  have happly : (between old new).withoutAddedEdges.applyTo old =
      pruned.addNodes (between old new).incomingNodes := rfl
  rw [happly]
  cases hn : new.node? id with
  | none =>
      have hother : ∀ k ∈ (between old new).incomingNodes, k.id ≠ id :=
        ne_of_mem_incomingNodes hnew.toIsSound hn
      rw [Graph.node?_addNodes_of_ne _ hother, hpruned, Graph.hasNode_eq, hn]
      rfl
  | some n =>
      obtain rfl := hnew.id_eq hn
      -- A node that does not come was there before, with the same content, and stays.
      by_cases hcomes : n ∈ (between old new).incomingNodes
      · refine ⟨n, Graph.node?_addNodes_of_mem _ hcomes fun m hm hid => ?_, ?_⟩
        · exact eq_of_mem_incomingNodes hnew.toIsSound hm hcomes hid
        · exact Node.sameContent_self (hnumbers n ((hnew.mem_nodeList n).mpr hn))
      · obtain ⟨hother, hbefore⟩ := exists_of_not_mem_incomingNodes hnew.toIsSound hn hcomes
        rw [Graph.node?_addNodes_of_ne _ hother, hpruned, Graph.hasNode_eq, hn, Option.isSome_some,
          if_pos rfl]
        exact hbefore

theorem hasNode_withoutAddedEdges (hold : old.IsIndexed) (hnew : new.IsIndexed)
    (hnumbers : ∀ n ∈ new.nodeList, n.properties.HasNumbers) (id : String) :
    ((between old new).withoutAddedEdges.applyTo old).hasNode id = new.hasNode id := by
  have hnode := node?_withoutAddedEdges hold hnew hnumbers id
  rw [Graph.hasNode_eq, Graph.hasNode_eq]
  cases hn : new.node? id with
  | none =>
      rw [hn] at hnode
      rw [hnode]
  | some n =>
      rw [hn] at hnode
      obtain ⟨m, hm, -⟩ := hnode
      rw [hm]
      rfl

theorem edge?_withoutAddedEdges (hold : old.IsIndexed) (hnew : new.IsIndexed) (key : EdgeKey) :
    ((between old new).withoutAddedEdges.applyTo old).edge? key =
      if new.hasEdge key then old.edge? key else none :=
  (Graph.edge?_addNodes _ _ key).trans ((pruned_spec hold hnew).2 key)

/-- No edge that comes is refused. -/
theorem ends_of_mem_addedEdges (hold : old.IsIndexed) (hnew : new.IsIndexed)
    (hnumbers : ∀ n ∈ new.nodeList, n.properties.HasNumbers) {e : Edge}
    (he : e ∈ (between old new).addedEdges) :
    ((between old new).withoutAddedEdges.applyTo old).hasNode e.source = true ∧
      ((between old new).withoutAddedEdges.applyTo old).hasNode e.target = true := by
  have hthere : new.hasEdge e.key = true :=
    Graph.hasEdge_iff.mpr ⟨e, ((mem_addedEdges hnew.toIsSound).mp he).1⟩
  rw [hasNode_withoutAddedEdges hold hnew hnumbers, hasNode_withoutAddedEdges hold hnew hnumbers]
  exact ⟨hnew.source hthere, hnew.target hthere⟩

/-- The edges are those of the new graph; one that was there before is kept as it was. -/
theorem edge?_applyTo_between (hold : old.IsIndexed) (hnew : new.IsIndexed)
    (hnumbers : ∀ n ∈ new.nodeList, n.properties.HasNumbers) (key : EdgeKey) :
    ((between old new).applyTo old).edge? key =
      if new.hasEdge key then (old.edge? key).or (new.edge? key) else none := by
  obtain ⟨-, hother, hcome⟩ :=
    Graph.attachAll_spec fun e => ends_of_mem_addedEdges hold hnew hnumbers (e := e)
  show (List.foldl Graph.attach ((between old new).withoutAddedEdges.applyTo old) _).edge? key = _
  by_cases hcomes : ∃ e ∈ (between old new).addedEdges, e.key = key
  · obtain ⟨e, he, rfl⟩ := hcomes
    obtain ⟨hfound, hmissing⟩ := (mem_addedEdges hnew.toIsSound).mp he
    have hunique : ∀ d ∈ (between old new).addedEdges, d.key = e.key → d = e := by
      intro d hd hkey
      have hd := ((mem_addedEdges hnew.toIsSound).mp hd).1
      rw [hkey] at hd
      exact Option.some.inj (hd.symm.trans hfound)
    replace hmissing := Graph.edge?_eq_none_iff.mpr hmissing
    rw [hcome e he hunique, Graph.hasEdge_eq, hfound, hmissing]
    rfl
  · -- An edge of the new graph that does not come was there before.
    have hnone : ∀ e ∈ (between old new).addedEdges, e.key ≠ key := fun e he hkey => hcomes ⟨e, he, hkey⟩
    rw [hother key hnone, edge?_withoutAddedEdges hold hnew]
    cases hthere : new.edge? key with
    | none => simp [Graph.hasEdge_eq, hthere]
    | some e =>
        obtain rfl := hnew.key_eq hthere
        have hbefore : old.hasEdge e.key = true := by
          by_contra hmissing
          exact hnone e ((mem_addedEdges hnew.toIsSound).mpr ⟨hthere, by simpa using hmissing⟩) rfl
        obtain ⟨before, hbefore⟩ := Graph.hasEdge_iff.mp hbefore
        rw [hbefore]
        rfl

/-- A change set between two graphs is empty just if there is nothing to tell them apart. -/
theorem isEmpty_between_iff (hold : old.IsIndexed) (hnew : new.IsIndexed) :
    (between old new).isEmpty = true ↔ old.Matches new := by
  rw [isEmpty_iff_parts]
  simp only [List.eq_nil_iff_forall_not_mem, mem_deletedEdges hold.toIsSound, mem_deletedNodes hold.toIsSound,
    mem_incomingNodes hnew.toIsSound, mem_addedEdges hnew.toIsSound]
  constructor
  · rintro ⟨hdeletedEdges, hdeletedNodes, hcomes, hadded⟩
    -- Nothing goes, so the old graph has no more than the new one; nothing comes, so it has no less.
    have hbefore : ∀ {n : Node}, new.node? n.id = some n →
        ∃ before, old.node? n.id = some before ∧ before.sameContent n = true := by
      intro n hn
      cases hold : old.node? n.id with
      | none => exact absurd ⟨hn, by rw [hold]; rfl⟩ (hcomes n)
      | some before => exact ⟨before, rfl, by simpa [hn, hold] using hcomes n⟩
    refine ⟨fun id => Bool.eq_iff_iff.mpr ⟨fun hid => ?_, fun hid => ?_⟩, fun {id m n} hm hn => ?_,
      fun key => Bool.eq_iff_iff.mpr ⟨fun hkey => ?_, fun hkey => ?_⟩⟩
    · by_contra hgone
      exact hdeletedNodes id ⟨hid, by simpa using hgone⟩
    · obtain ⟨n, hn⟩ := Graph.hasNode_iff.mp hid
      obtain rfl := hnew.id_eq hn
      obtain ⟨before, hfound, -⟩ := hbefore hn
      rw [Graph.hasNode_eq, hfound]
      rfl
    · obtain rfl := hnew.id_eq hn
      obtain ⟨before, hfound, hsame⟩ := hbefore hn
      obtain rfl := Option.some.inj (hm.symm.trans hfound)
      exact hsame
    · by_contra hgone
      exact hdeletedEdges (.exact key) ⟨key, rfl, hkey, by simpa using hgone⟩
    · by_contra hmissing
      obtain ⟨e, he⟩ := Graph.hasEdge_iff.mp hkey
      obtain rfl := hnew.key_eq he
      exact hadded e ⟨he, by simpa using hmissing⟩
  · intro hmatches
    refine ⟨?_, ?_, ?_, ?_⟩
    · rintro _ ⟨key, -, hthere, hgone⟩
      rw [hmatches.hasEdge, hgone] at hthere
      cases hthere
    · rintro id ⟨hthere, hgone⟩
      rw [hmatches.hasNode, hgone] at hthere
      cases hthere
    · rintro n ⟨hn, hdiffers⟩
      have hthere : old.hasNode n.id = true := (hmatches.hasNode _).trans (Graph.hasNode_iff.mpr ⟨n, hn⟩)
      obtain ⟨before, hbefore⟩ := Graph.hasNode_iff.mp hthere
      rw [hbefore, Option.all_some, hmatches.sameContent hbefore hn] at hdiffers
      cases hdiffers
    · rintro e ⟨he, hmissing⟩
      rw [hmatches.hasEdge, Graph.hasEdge_eq, he] at hmissing
      cases hmissing

/-- **Patching reaches the new graph.** The difference between two graphs that can come about leads from
the old one to a graph that matches the new one. What has an edge in both keeps the old one, no edge
that comes is refused, and the difference is empty just if the two matched before. -/
theorem applyTo_between (hold : old.Reachable) (hnew : new.Reachable)
    (hnumbers : ∀ n ∈ new.nodeList, n.properties.HasNumbers) :
    ((between old new).applyTo old).Matches new ∧
      (∀ key, old.hasEdge key = true → new.hasEdge key = true →
        ((between old new).applyTo old).edge? key = old.edge? key) ∧
      (∀ key, old.hasEdge key = false → ((between old new).applyTo old).edge? key = new.edge? key) ∧
      ((between old new).withoutAddedEdges.applyTo old).addEdges (between old new).addedEdges =
        .ok ((between old new).applyTo old) ∧
      ((between old new).isEmpty = true ↔ old.Matches new) := by
  have hold := hold.isIndexed
  have hnew := hnew.isIndexed
  have hends := fun e => ends_of_mem_addedEdges hold hnew hnumbers (e := e)
  have hnode : ∀ id, ((between old new).applyTo old).node? id =
      ((between old new).withoutAddedEdges.applyTo old).node? id := (Graph.attachAll_spec hends).1
  have hedge := edge?_applyTo_between hold hnew hnumbers
  refine ⟨⟨fun id => ?_, fun {id m n} hm hn => ?_, fun key => ?_⟩, fun key hbefore hafter => ?_,
    fun key hmissing => ?_, Graph.addEdges_eq hends, isEmpty_between_iff hold hnew⟩
  · rw [Graph.hasNode_eq, hnode, ← Graph.hasNode_eq, hasNode_withoutAddedEdges hold hnew hnumbers]
  · have hcontent := node?_withoutAddedEdges hold hnew hnumbers id
    rw [hn] at hcontent
    obtain ⟨k, hk, hsame⟩ := hcontent
    obtain rfl : k = m := Option.some.inj (hk.symm.trans ((hnode id).symm.trans hm))
    exact hsame
  · rw [Graph.hasEdge_eq, hedge, Graph.hasEdge_eq new]
    cases new.edge? key <;> simp
  · obtain ⟨e, he⟩ := Graph.hasEdge_iff.mp hbefore
    rw [hedge, if_pos hafter, he, Option.some_or]
  · replace hmissing := Graph.edge?_eq_none_iff.mpr hmissing
    rw [hedge, hmissing, Option.none_or, Graph.hasEdge_eq]
    cases new.edge? key <;> rfl

/-- A node goes that calls itself and is called, another becomes a class, one with a float stays as it
is, and of two relations between two nodes the other one is kept. -/
theorem applyTo_between_becomesClass :
    let node (id : String) (core : NodeCore) : Node :=
      ⟨id, core, .ofList [("weight", Property.float ⟨0x3FF8000000000000⟩)]⟩
    let edge (source target : String) (kind : EdgeKind) := Edge.ofCore source target (.plain kind)
    let old : Graph := [edge "m" "f" .contains, edge "m" "g" .contains, edge "g" "g" .calls,
      edge "f" "g" .calls, edge "m" "f" .references].foldl Graph.attach
        ((∅ : Graph).addNodes [node "m" (.module "m" "m"), node "f" (.variable "f" "m.f"),
          node "g" (.variable "g" "m.g")])
    let new : Graph := [edge "m" "f" .contains, edge "m" "f" .defines, edge "f" "f" .inherits].foldl
      Graph.attach ((∅ : Graph).addNodes [node "m" (.module "m" "m"),
        node "f" (.classDef "f" "m.f" 1 9 [] [])])
    old.Reachable ∧ new.Reachable ∧ (∀ n ∈ new.nodeList, n.properties.HasNumbers) ∧
      ((between old new).applyTo old).Matches new ∧
      (((between old new).applyTo old).edgeList.map Edge.key) =
        [⟨"f", "f", .inherits⟩, ⟨"m", "f", .contains⟩, ⟨"m", "f", .defines⟩] ∧
      (between old new).isEmpty = false := by
  intro node edge old new
  have hold : old.Reachable := (Graph.Reachable.empty.addNodes _).attachAll _
  have hnew : new.Reachable := (Graph.Reachable.empty.addNodes _).attachAll _
  have hnumbers : ∀ n ∈ new.nodeList, n.properties.HasNumbers := by decide +kernel
  obtain ⟨hmatches, -⟩ := applyTo_between hold hnew hnumbers
  exact ⟨hold, hnew, hnumbers, hmatches, by decide +kernel, by decide +kernel⟩

end Delta

end ProgramGraph
