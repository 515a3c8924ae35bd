import ProgramGraph.Proofs.Outline.Assembly
import ProgramGraph.Proofs.Sync.Closure

set_option autoImplicit false

/-! # The fragment of a file is its graph

A stored content covers the graph of a file if it has the nodes of the graph, and its edges are
just the edges that leave owned nodes. Then the closure of the node of the file in the content is that
graph: what the file owns leads to edges of the graph only, and all of the graph is reached from the
file. So the fragment that is read back is the graph, with the nodes as they are stored.
-/

namespace ProgramGraph

/-- The content has the graph of the file, and no other edges leave nodes of the file. -/
structure Content.Covers (c : Content) (path : String) (g : Graph) : Prop where
  nodes : ∀ {id}, g.hasNode id = true → c.hasNode id = true
  edges : ∀ {key}, g.hasEdge key = true → c.hasEdge key = true
  owned : ∀ {key n}, g.hasEdge key = true → c.node? key.source = some n → n.isOwnedBy path = true
  closed : ∀ {key n}, c.hasEdge key = true → c.node? key.source = some n → n.isOwnedBy path = true →
    g.hasEdge key = true

namespace Store

variable {s : Store} {c : Content} {g found : Graph} {path : String} {known : EntityName → Prop}

/-- The graph as it is stored: its nodes with their stored content, and its edges. -/
structure Restores (c : Content) (g found : Graph) : Prop where
  sound : found.IsSound
  node? : ∀ id, found.node? id = if g.hasNode id then c.node? id else none
  hasEdge : ∀ key, found.hasEdge key = g.hasEdge key

/-- Own nodes are nodes of the graph that the file owns. -/
theorem hasNode_of_isOwn (hg : g.IsSound) (hc : c.Covers path g)
    (hfile : ∀ n, c.node? (EntityName.ofFile path).id = some n →
      g.hasNode (EntityName.ofFile path).id = true ∧ n.isOwnedBy path = true)
    {id : String} (h : c.IsOwn path id) :
    g.hasNode id = true ∧ ∃ n, c.node? id = some n ∧ n.isOwnedBy path = true := by
  induction h with
  | file h =>
      obtain ⟨n, hn⟩ := Content.hasNode_iff.mp h
      exact ⟨(hfile n hn).1, n, hn, (hfile n hn).2⟩
  | owned _ hkey hn howned ih =>
      obtain ⟨-, m, hm, hmowned⟩ := ih
      exact ⟨hg.target (hc.closed hkey hm hmowned), _, hn, howned⟩

/-- An edge of the graph that leaves a node of the fragment leaves an own node. -/
theorem hasOwnEdge_of_hasEdge (hg : g.IsSound) (hc : c.Covers path g) {key : EdgeKey}
    (h : g.hasEdge key = true) (hsource : c.InFragment path key.source) : c.HasOwnEdge path key := by
  obtain ⟨n, hn⟩ := Content.hasNode_iff.mp (hc.nodes (hg.source h))
  exact ⟨hsource.isOwn hn (hc.owned h hn), hc.edges h, hc.nodes (hg.target h)⟩

/-- What the file reaches is in the fragment. -/
theorem inFragment_of_reaches (hg : g.IsSound) (hc : c.Covers path g)
    (hfile : c.hasNode (EntityName.ofFile path).id = true) {id : String}
    (h : g.Reaches (· = (EntityName.ofFile path).id) id) : c.InFragment path id := by
  induction h with
  | root hid => exact .inl (hid ▸ .file hfile)
  | step key _ hkey ih => exact .inr ⟨key, hasOwnEdge_of_hasEdge hg hc hkey ih, rfl⟩

/-- **A fragment that a graph covers** is the graph as it is stored, since the file reaches all of it. -/
theorem Restores.of_isFragment (hg : g.IsOfFile known path) (hc : c.Covers path g)
    (hfile : ∀ n, c.node? (EntityName.ofFile path).id = some n →
      g.hasNode (EntityName.ofFile path).id = true ∧ n.isOwnedBy path = true)
    (h : c.IsFragment path found) : Restores c g found := by
  have hin : ∀ {id}, g.hasNode id = true → c.InFragment path id := fun hid =>
    inFragment_of_reaches hg.sound hc (hc.nodes (hg.file hid)) (hg.reached hid)
  have hedge : ∀ key, c.HasOwnEdge path key ↔ g.hasEdge key = true := by
    refine fun key => ⟨fun hkey => ?_, fun hkey => ?_⟩
    · obtain ⟨-, n, hn, howned⟩ := hasNode_of_isOwn hg.sound hc hfile hkey.source
      exact hc.closed hkey.stored hn howned
    · exact hasOwnEdge_of_hasEdge hg.sound hc hkey (hin (hg.sound.source hkey))
  have hnode : ∀ id, c.InFragment path id ↔ g.hasNode id = true := by
    refine fun id => ⟨?_, hin⟩
    rintro (hid | ⟨key, hkey, rfl⟩)
    · exact (hasNode_of_isOwn hg.sound hc hfile hid).1
    · exact hg.sound.target ((hedge key).mp hkey)
  constructor
  case sound => exact h.indexed.toIsSound
  case node? =>
    intro id
    refine Option.ext fun n => ?_
    rw [h.node?_iff, hnode]
    cases g.hasNode id <;> simp
  case hasEdge =>
    intro key
    rw [Bool.eq_iff_iff, ← hedge, Graph.hasEdge_iff]
    simp only [h.edge?_iff, exists_and_right, and_iff_right_iff_imp]
    exact fun hkey => Content.hasEdge_iff.mp hkey.stored

/-- **The fragment of a file** is its graph as it is stored. -/
theorem fragment_eq (hs : s.Shows c) {known : EntityName → Prop} (hg : g.IsOfFile known path)
    (hc : c.Covers path g)
    (hfile : ∀ n, c.node? (EntityName.ofFile path).id = some n →
      g.hasNode (EntityName.ofFile path).id = true ∧ n.isOwnedBy path = true) :
    ∃ found, s.fragment path = .ok found ∧ Restores c g found := by
  obtain ⟨found, hfragment, hfound⟩ := exists_fragment hs path
  exact ⟨found, hfragment, .of_isFragment hg hc hfile hfound⟩

end Store

end ProgramGraph
