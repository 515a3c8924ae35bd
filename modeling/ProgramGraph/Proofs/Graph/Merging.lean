import ProgramGraph.Proofs.Delta.Applied

set_option autoImplicit false

/-! # Merging graphs

A graph with another one merged into it has the nodes and edges of the other, and of its own those
that the other lacks (`Graph.IsUnion`). It does not matter in which order they are put in: both ends
of every edge of the other graph are nodes of it, so they are there before the first edge comes, and
no edge is refused. A union is known by what is found in it, since its index follows from its edges;
the laws of merging are those of `Option.or`.
-/

namespace ProgramGraph.Graph

/-- The graph has all of `b`, and of `a` what `b` lacks, with the index that belongs to it. -/
structure IsUnion (a b g : Graph) : Prop where
  indexed : g.IsIndexed
  node? : ∀ id, g.node? id = (b.node? id).or (a.node? id)
  edge? : ∀ key, g.edge? key = (b.edge? key).or (a.edge? key)

namespace IsUnion

variable {a b c ab bc g g' : Graph}

/-- There is one union. -/
theorem same (h : IsUnion a b g) (h' : IsUnion a b g') : g.Same g' :=
  h.indexed.same h'.indexed (fun id => (h.node? id).trans (h'.node? id).symm)
    fun key => (h.edge? key).trans (h'.edge? key).symm

/-- A union of three does not depend on which two come first. -/
theorem assoc (hab : IsUnion a b ab) (hbc : IsUnion b c bc) (h : IsUnion ab c g) (h' : IsUnion a bc g') :
    g.Same g' := by
  refine h.indexed.same h'.indexed (fun id => ?_) fun key => ?_
  · calc g.node? id
        = (c.node? id).or ((b.node? id).or (a.node? id)) := by rw [h.node?, hab.node?]
      _ = ((c.node? id).or (b.node? id)).or (a.node? id) := Option.or_assoc.symm
      _ = g'.node? id := by rw [h'.node?, hbc.node?]
  · calc g.edge? key
        = (c.edge? key).or ((b.edge? key).or (a.edge? key)) := by rw [h.edge?, hab.edge?]
      _ = ((c.edge? key).or (b.edge? key)).or (a.edge? key) := Option.or_assoc.symm
      _ = g'.edge? key := by rw [h'.edge?, hbc.edge?]

/-- What was put in already is put in once more without effect. -/
theorem absorbs (hab : IsUnion a b ab) (h : IsUnion ab b g) : g.Same ab := by
  refine h.indexed.same hab.indexed (fun id => ?_) fun key => ?_
  · rw [h.node?, hab.node?, ← Option.or_assoc, Option.or_self]
  · rw [h.edge?, hab.edge?, ← Option.or_assoc, Option.or_self]

end IsUnion

variable {a b c : Graph}

/-- **The nodes and edges of a sound graph can be put into any other**, in any order. -/
theorem exists_addEdges_isUnion (ha : a.IsIndexed) (hb : b.IsSound) {nodes : List Node} {edges : List Edge}
    (hnodes : nodes.Perm b.nodeList) (hedges : edges.Perm b.edgeList) :
    ∃ g, (a.addNodes nodes).addEdges edges = .ok g ∧ IsUnion a b g := by
  have hnode : ∀ n, n ∈ nodes ↔ b.node? n.id = some n := fun n => hnodes.mem_iff.trans (hb.mem_nodeList n)
  have hedge : ∀ e, e ∈ edges ↔ b.edge? e.key = some e := fun e => hedges.mem_iff.trans (hb.mem_edgeList e)
  have hthere : ∀ {id}, b.hasNode id = true → (a.addNodes nodes).hasNode id = true := by
    intro id hid
    obtain ⟨n, hn⟩ := hasNode_iff.mp hid
    obtain rfl := hb.id_eq hn
    exact (hasNode_addNodes ..).mpr (.inl ⟨n, (hnode n).mpr hn, rfl⟩)
  -- Both ends of each edge are there once the nodes are, so no edge is refused.
  have hends : ∀ e ∈ edges,
      (a.addNodes nodes).hasNode e.source = true ∧ (a.addNodes nodes).hasNode e.target = true := by
    intro e he
    have hkey : b.hasEdge e.key = true := hasEdge_iff.mpr ⟨e, (hedge e).mp he⟩
    exact ⟨hthere (hb.source hkey), hthere (hb.target hkey)⟩
  have hadd := addEdges_eq hends
  refine ⟨_, hadd, ⟨(ha.addNodes nodes).addEdges hadd, fun id => ?_, fun key => ?_⟩⟩
  · rw [node?_attachAll, node?_addNodes_listed a hnode hb.id_eq]
  · rw [edge?_attachAll_listed hends hedge hb.key_eq, edge?_addNodes]

/-- **Merging is a union in which the other graph wins.** It never fails, in whatever order the nodes
and the edges come; merging three graphs leads to the same graph both ways, and merging the same graph
again changes nothing. -/
theorem Reachable.merge_isUnion (ha : a.Reachable) (hb : b.Reachable) (hc : c.Reachable) :
    ∃ ab, a.merge b = .ok ab ∧ IsUnion a b ab ∧
      (∀ nodes edges, nodes.Perm b.nodeList → edges.Perm b.edgeList →
        ∃ g, (a.addNodes nodes).addEdges edges = .ok g ∧ g.Same ab) ∧
      (∃ bc abc abc', b.merge c = .ok bc ∧ ab.merge c = .ok abc ∧ a.merge bc = .ok abc' ∧ abc.Same abc') ∧
      ∃ again, ab.merge b = .ok again ∧ again.Same ab := by
  have hmerge : ∀ {g other : Graph}, g.IsIndexed → other.IsIndexed →
      ∃ g', g.merge other = .ok g' ∧ IsUnion g other g' := fun hg hother =>
    exists_addEdges_isUnion hg hother.toIsSound (.refl _) (.refl _)
  obtain ⟨ab, hab, hunion⟩ := hmerge ha.isIndexed hb.isIndexed
  refine ⟨ab, hab, hunion, fun nodes edges hnodes hedges => ?_, ?_, ?_⟩
  · obtain ⟨g, hg, hany⟩ := exists_addEdges_isUnion ha.isIndexed hb.isIndexed.toIsSound hnodes hedges
    exact ⟨g, hg, hany.same hunion⟩
  · obtain ⟨bc, hbc, hunion'⟩ := hmerge hb.isIndexed hc.isIndexed
    obtain ⟨abc, habc, hleft⟩ := hmerge hunion.indexed hc.isIndexed
    obtain ⟨abc', habc', hright⟩ := hmerge ha.isIndexed hunion'.indexed
    exact ⟨bc, abc, abc', hbc, habc, habc', hunion.assoc hunion' hleft hright⟩
  · obtain ⟨again, hagain, htwice⟩ := hmerge hunion.indexed hb.isIndexed
    exact ⟨again, hagain, hunion.absorbs htwice⟩

/-- Two nodes and an edge between them that both graphs have, a call of itself and a node that one of them
has alone, and a third graph that replaces a node again. -/
theorem Reachable.merge_isUnion_collisions :
    let node (id name : String) := Node.ofCore id (.module name name)
    let call (source target : String) (line : Int64) := Edge.ofCore source target (.calls (some line) "direct" none)
    let a := [call "x" "y" 1, call "y" "y" 1].foldl Graph.attach ((∅ : Graph).addNodes [node "x" "old", node "y" "old"])
    let b := [call "x" "y" 2, call "z" "y" 2].foldl Graph.attach
      ((∅ : Graph).addNodes [node "z" "new", node "y" "new", node "x" "new"])
    let c := (∅ : Graph).addNode (node "x" "last")
    a.Reachable ∧ b.Reachable ∧ c.Reachable ∧
      ∃ ab, a.merge b = .ok ab ∧ IsUnion a b ab ∧
        ab.nodeList.map Node.name = ["new", "new", "new"] ∧
        ab.edgeList.map Edge.core = [.calls (some 2) "direct" none, .calls (some 1) "direct" none,
          .calls (some 2) "direct" none] ∧
        ab.keysAt "y" .incoming = [⟨"x", "y", .calls⟩, ⟨"y", "y", .calls⟩, ⟨"z", "y", .calls⟩] ∧
        (∃ bc abc abc', b.merge c = .ok bc ∧ ab.merge c = .ok abc ∧ a.merge bc = .ok abc' ∧ abc.Same abc') ∧
        ∃ again, ab.merge b = .ok again ∧ again.Same ab := by
  intro node call a b c
  have ha : a.Reachable := (Reachable.empty.addNodes _).attachAll _
  have hb : b.Reachable := (Reachable.empty.addNodes _).attachAll _
  have hc : c.Reachable := Reachable.empty.addNode _
  have hvalue : ((a.merge b).map fun ab =>
      (ab.nodeList.map Node.name, ab.edgeList.map Edge.core, ab.keysAt "y" .incoming)).toOption =
      some (["new", "new", "new"], [.calls (some 2) "direct" none, .calls (some 1) "direct" none,
          .calls (some 2) "direct" none],
        [⟨"x", "y", .calls⟩, ⟨"y", "y", .calls⟩, ⟨"z", "y", .calls⟩]) := by decide +kernel
  obtain ⟨ab, hab, hunion, -, hassoc, htwice⟩ := ha.merge_isUnion hb hc
  rw [hab] at hvalue
  simp only [Except.map, Except.toOption, Option.some.injEq, Prod.mk.injEq] at hvalue
  obtain ⟨hnodes, hedges, hkeys⟩ := hvalue
  exact ⟨ha, hb, hc, ab, hab, hunion, hnodes, hedges, hkeys, hassoc, htwice⟩

end ProgramGraph.Graph
