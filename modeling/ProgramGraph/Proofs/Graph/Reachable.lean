import ProgramGraph.Delta.Basic
import ProgramGraph.Graph.Document
import ProgramGraph.Proofs.Graph.Index

set_option autoImplicit false

/-! # Graphs that can come about

Every graph starts empty or as the reading of a document, and changes by single nodes and edges, by
another graph that is merged into it, or by a change set. Each of these steps keeps the index right,
so all such graphs are indexed (`Reachable.isIndexed`). Of two of them one can always be merged into
the other: no graph is left half merged.
-/

namespace ProgramGraph

/-! ## Change sets keep the index -/

namespace Delta

theorem isIndexed_removeSelected {g : Graph} (h : g.IsIndexed) (s : EdgeSelector) :
    (removeSelected g s).IsIndexed := by
  unfold removeSelected
  split
  · exact h.cuts (.removeEdge g _)
  · exact h.cuts (g.cuts_removeEdgesBetween _ _)

theorem isIndexed_applyTo {g : Graph} (h : g.IsIndexed) (d : Delta) : (d.applyTo g).IsIndexed := by
  have hedges := List.foldlRecOn d.deletedEdges.toList removeSelected h
    fun _ hg s _ => isIndexed_removeSelected hg s
  have hnodes := List.foldlRecOn d.deletedNodes.toList Graph.removeNode hedges
    fun _ hg id _ => hg.removeNode id
  exact List.foldlRecOn d.addedEdges Graph.attach (hnodes.addNodes d.incomingNodes)
    fun _ hg e _ => hg.attach e

end Delta

namespace Graph

/-! ## Many at once -/

theorem hasNode_attachAll (g : Graph) (edges : List Edge) (id : String) :
    (edges.foldl attach g).hasNode id = g.hasNode id := by
  induction edges generalizing g with
  | nil => rfl
  | cons e rest ih => rw [List.foldl_cons, ih, hasNode_attach]

/-- Of some edges those are attached whose ends are there. -/
theorem hasEdge_attachAll (g : Graph) (edges : List Edge) (key : EdgeKey) :
    (edges.foldl attach g).hasEdge key = true ↔
      (∃ e ∈ edges, e.key = key ∧ g.hasNode e.source = true ∧ g.hasNode e.target = true) ∨
        g.hasEdge key = true := by
  induction edges generalizing g with
  | nil => simp
  | cons e rest ih =>
      rw [List.foldl_cons, ih, hasEdge_attach, List.exists_mem_cons_iff]
      simp only [hasNode_attach]
      rw [or_left_comm, or_assoc]

/-- Edges with both their ends in the graph are put in one after the other, and none is refused. -/
theorem addEdges_eq {g : Graph} {edges : List Edge}
    (h : ∀ e ∈ edges, g.hasNode e.source = true ∧ g.hasNode e.target = true) :
    g.addEdges edges = .ok (edges.foldl attach g) := by
  induction edges generalizing g with
  | nil => rfl
  | cons e rest ih =>
      obtain ⟨hsource, htarget⟩ := h e List.mem_cons_self
      obtain ⟨g₁, hadd, hjoins⟩ := addEdge_eq hsource htarget
      have hattach : g.attach e = g₁ := by rw [attach, hadd]
      have hrest := ih (g := g₁) fun d hd => by
        rw [hjoins.hasNode, hjoins.hasNode]
        exact h d (List.mem_cons_of_mem _ hd)
      rw [addEdges, List.foldlM_cons, hadd, List.foldl_cons, hattach]
      exact hrest

/-- A sound graph can be merged into any graph. -/
theorem merge_eq (g : Graph) {other : Graph} (h : other.IsSound) :
    g.merge other = .ok (other.edgeList.foldl attach (g.addNodes other.nodeList)) := by
  have hthere : ∀ {id}, other.hasNode id = true → (g.addNodes other.nodeList).hasNode id = true := by
    intro id hid
    obtain ⟨n, hn⟩ := hasNode_iff.mp hid
    obtain rfl := h.id_eq hn
    exact (hasNode_addNodes ..).mpr (.inl ⟨n, (h.mem_nodeList n).mpr hn, rfl⟩)
  refine addEdges_eq fun e he => ?_
  have hkey := (h.mem_map_key e.key).mp (List.mem_map_of_mem he)
  exact ⟨hthere (h.source hkey), hthere (h.target hkey)⟩

/-! ## Reaching graphs -/

/-- The graphs that come about by the changes a graph can undergo. -/
inductive Reachable : Graph → Prop where
  | empty : Reachable ∅
  | addNode {g : Graph} (h : Reachable g) (n : Node) : Reachable (g.addNode n)
  /-- An edge is put in, or refused. -/
  | attach {g : Graph} (h : Reachable g) (e : Edge) : Reachable (g.attach e)
  | removeNode {g : Graph} (h : Reachable g) (id : String) : Reachable (g.removeNode id)
  | removeEdge {g : Graph} (h : Reachable g) (key : EdgeKey) : Reachable (g.removeEdge key)
  | removeEdgesBetween {g : Graph} (h : Reachable g) (source target : String) :
      Reachable (g.removeEdgesBetween source target)
  | merge {g other g' : Graph} (h : Reachable g) (hother : Reachable other)
      (hmerge : g.merge other = .ok g') : Reachable g'
  | applyTo {g : Graph} (h : Reachable g) (d : Delta) : Reachable (d.applyTo g)
  | ofJson {g : Graph} {text : String} (h : Graph.ofJson text = .ok g) : Reachable g
  | ofBytes {g : Graph} {bytes : Text.Bytes} (h : Graph.ofBytes bytes = .ok g) : Reachable g

theorem isIndexed_ofDocument {encoding : Wire.Encoding} {what : Encoded} {v : Option Wire.Value}
    {g : Graph} (h : ofDocument encoding what v = .ok g) : g.IsIndexed := by
  unfold ofDocument at h
  split at h
  · exact (isIndexed_empty.addNodes _).addEdges h
  · cases h

namespace Reachable

variable {g : Graph}

theorem addNodes (h : g.Reachable) (nodes : List Node) : (g.addNodes nodes).Reachable :=
  List.foldlRecOn nodes Graph.addNode h fun _ hg n _ => hg.addNode n

theorem attachAll (h : g.Reachable) (edges : List Edge) : (edges.foldl Graph.attach g).Reachable :=
  List.foldlRecOn edges Graph.attach h fun _ hg e _ => hg.attach e

theorem isIndexed (h : g.Reachable) : g.IsIndexed := by
  induction h with
  | empty => exact isIndexed_empty
  | addNode _ n ih => exact ih.addNode n
  | attach _ e ih => exact ih.attach e
  | removeNode _ id ih => exact ih.removeNode id
  | removeEdge _ key ih => exact ih.cuts (.removeEdge _ key)
  | removeEdgesBetween _ source target ih => exact ih.cuts (cuts_removeEdgesBetween _ source target)
  | merge _ _ hmerge ih _ => exact (ih.addNodes _).addEdges hmerge
  | applyTo _ d ih => exact Delta.isIndexed_applyTo ih d
  | ofJson h => exact isIndexed_ofDocument h
  | ofBytes h => exact isIndexed_ofDocument h

/-- **A graph that can come about is indexed**, so the edges at a node are those that a scan of all
edges finds; and another such graph can be merged into it. -/
theorem edges_eq_scan (h : g.Reachable) :
    g.IsIndexed ∧
      (∀ source target? kind?, g.edgesFrom source target? kind? = g.edgeList.filter fun e =>
        e.source = source && (target?.all fun t => e.target = t) && matchesKind kind? e) ∧
      (∀ target kind?, g.edgesTo target kind? = g.edgeList.filter fun e =>
        e.target = target && matchesKind kind? e) ∧
      ∀ other : Graph, other.Reachable → ∃ g', g.merge other = .ok g' := by
  refine ⟨h.isIndexed, fun source target? kind? => ?_, fun target kind? => ?_, fun other hother => ?_⟩
  · rw [edgesFrom, h.isIndexed.adjacent_eq, List.filter_filter]
    refine List.filter_congr fun e _ => ?_
    rw [Bool.and_comm, ← Bool.and_assoc]
    rfl
  · rw [edgesTo, h.isIndexed.adjacent_eq, List.filter_filter]
    refine List.filter_congr fun e _ => ?_
    rw [Bool.and_comm]
    rfl
  · exact ⟨_, g.merge_eq hother.isIndexed.toIsSound⟩

/-- A node that calls itself and is called back, after another node went with its edges, a document
was merged in and a change set took two of the edges. -/
theorem edges_eq_scan_selfCall :
    let node (id : String) := Node.ofCore id (.module id id)
    let edge (source target : String) (kind : EdgeKind) := Edge.ofCore source target (.plain kind)
    let g : Graph := [edge "a" "a" .calls, edge "a" "b" .calls, edge "a" "b" .imports, edge "b" "a" .calls,
      edge "gone" "a" .calls, edge "a" "nowhere" .calls].foldl Graph.attach
        ((∅ : Graph).addNodes [node "a", node "b", node "gone"])
    let text := "\x7b\"nodes\":\x7b\"c\":\x7b\"id\":\"c\",\"type\":\"module\"\x7d\x7d,\"edges\":[]\x7d"
    let d : Delta := { Delta.empty with
      deletedEdges := .ofList [EdgeSelector.exact ⟨"a", "b", .imports⟩, EdgeSelector.any "b" "a"] }
    ∃ other g', Graph.ofJson text = .ok other ∧ (g.removeNode "gone").merge other = .ok g' ∧
      (d.applyTo g').Reachable ∧ (d.applyTo g').IsIndexed ∧
      (d.applyTo g').edgesTo "a" none = (d.applyTo g').edgeList.filter (fun e =>
        e.target = "a" && matchesKind none e) ∧
      ((d.applyTo g').edgesFrom "a" none none).map Edge.key = [⟨"a", "a", .calls⟩, ⟨"a", "b", .calls⟩] ∧
      ((d.applyTo g').edgesTo "a" none).map Edge.key = [⟨"a", "a", .calls⟩] := by
  intro node edge g text d
  have hvalue : ((Graph.ofJson text).bind fun other => ((g.removeNode "gone").merge other).map fun g' =>
      (((d.applyTo g').edgesFrom "a" none none).map Edge.key,
        ((d.applyTo g').edgesTo "a" none).map Edge.key)).toOption =
      some ([⟨"a", "a", .calls⟩, ⟨"a", "b", .calls⟩], [⟨"a", "a", .calls⟩]) := by decide +kernel
  have hg : g.Reachable := (empty.addNodes _).attachAll _
  cases hother : Graph.ofJson text with
  | error _ =>
      rw [hother] at hvalue
      cases hvalue
  | ok other =>
      obtain ⟨-, -, -, hmerge⟩ := (hg.removeNode "gone").edges_eq_scan
      obtain ⟨g', hg'⟩ := hmerge other (.ofJson hother)
      have hreach := ((hg.removeNode "gone").merge (.ofJson hother) hg').applyTo d
      obtain ⟨hindexed, -, hto, -⟩ := hreach.edges_eq_scan
      rw [hother, Except.bind, hg'] at hvalue
      obtain ⟨hfromKeys, htoKeys⟩ := Prod.mk.inj (Option.some.inj hvalue)
      exact ⟨other, g', rfl, hg', hreach, hindexed, hto "a" none, hfromKeys, htoKeys⟩

end Reachable

end Graph

end ProgramGraph
