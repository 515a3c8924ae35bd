import ProgramGraph.Proofs.Store.Filing
import ProgramGraph.Proofs.Store.Meeting

set_option autoImplicit false

/-! # Loading from a keyed store

What a load from a keyed store comes to can be said by what the store answers to single questions: it has
the nodes that are found and that steps from the root lead to, each along an edge found at a node to a node
that is found (`Keyed.Reaches`), and of the edges found at them those with both ends among them.

A load asks for the edges of the nodes at the bound too, and meets identifiers of which it learns only later
that no node has them. Neither shows in the end, and nothing can fail on the way where the records can be
read (`Keyed.CanArise.loadGraph_exact`).
-/

namespace ProgramGraph.Keyed

open ProgramGraph.Text

variable {k : Keyed} {root : String}

/-! ## What can be read -/

/-- The nodes and edges that can be read where their keys say. -/
def content (k : Keyed) : Content where
  node? id := ((k.live? (k.layout.node id)).bind fun payload => (decodeNode payload).toOption).filter
    fun n => n.id = id
  edge? key := ((k.live? (k.layout.edge key)).bind fun payload => (decodeEdge payload).toOption).filter
    fun e => e.key = key
  id_eq h := of_decide_eq_true (Option.filter_eq_some_iff.mp h).2
  key_eq h := of_decide_eq_true (Option.filter_eq_some_iff.mp h).2

theorem content_edge?_eq_some {key : EdgeKey} {e : Edge} :
    k.content.edge? key = some e ↔
      (∃ payload, k.live? (k.layout.edge key) = some payload ∧ decodeEdge payload = .ok e) ∧ e.key = key := by
  simp only [content, Option.filter_eq_some_iff, Option.bind_eq_some_iff, toOption_eq_some, decide_eq_true_eq]

theorem start_edges_isPrefix_start (source : String) :
    k.layout.start ["edges"] <+: k.layout.start ["edges", source] :=
  (Slot.start_isPrefix_key_append ["edges"] (List.cons_ne_nil source [])).trans (List.prefix_append _ _)

namespace DecodesInPlace

theorem node?_eq (h : k.DecodesInPlace) (id : String) : k.node? id = .ok (k.content.node? id) := by
  have hcontent : k.content.node? id =
      ((k.live? (k.layout.node id)).bind fun payload => (decodeNode payload).toOption).filter
        fun n => n.id = id := rfl
  rw [hcontent]
  unfold node?
  cases hlive : k.live? (k.layout.node id) with
  | none => rfl
  | some payload =>
      obtain ⟨n, hn, hid⟩ := h.node hlive
      simp [hn, hid, Except.map, Except.toOption, Option.filter_some]

/-- The edges found at a node are those of the content. A scan may find edges of other nodes as well, and
leaves them out. -/
theorem edgesFrom_eq (h : k.DecodesInPlace) (source : String) :
    ∃ edges, k.edgesFrom source none none = .ok edges ∧
      ∀ e, e ∈ edges ↔ k.content.edge? e.key = some e ∧ e.source = source := by
  -- Every entry that the scan meets can be read, also those of other nodes.
  have hdecodes : ∀ entry ∈ k.liveUnder (k.layout.start ["edges", source]),
      ∃ e, decodeEdge entry.2 = .ok e := by
    intro entry hentry
    obtain ⟨hstart, hlive⟩ := mem_liveUnder.mp hentry
    obtain ⟨e, he, -⟩ := h.edge ((start_edges_isPrefix_start source).trans hstart) hlive
    exact ⟨e, he⟩
  refine ⟨(readable (fun entry => decodeEdge entry.2) (k.liveUnder (k.layout.start ["edges", source]))).filter
    fun e => e.source = source, ?_, fun e => ?_⟩
  · have hunder : k.edgesUnder (k.layout.start ["edges", source]) =
        .ok (readable (fun entry => decodeEdge entry.2) (k.liveUnder (k.layout.start ["edges", source]))) :=
      mapM_eq_readable hdecodes
    show (k.edgesUnder (k.layout.start ["edges", source]) >>= _) = _
    rw [hunder]
    simp [bind, Except.bind, pure, Except.pure]
  · rw [List.mem_filter, mem_readable, decide_eq_true_eq, content_edge?_eq_some, and_iff_left rfl]
    constructor
    · rintro ⟨⟨⟨key, payload⟩, hentry, he⟩, hsource⟩
      obtain ⟨hstart, hlive⟩ := mem_liveUnder.mp hentry
      obtain ⟨d, hd, hkey⟩ := h.edge ((start_edges_isPrefix_start source).trans hstart) hlive
      obtain rfl : d = e := Except.ok.inj (hd.symm.trans he)
      exact ⟨⟨payload, by rw [hkey]; exact hlive, he⟩, hsource⟩
    · rintro ⟨⟨payload, hlive, he⟩, rfl⟩
      have hstart : k.layout.start ["edges", e.source] <+: (Slot.edge e.key).bytes k.layout :=
        @Slot.start_source_isPrefix k.layout e.key none rfl
      exact ⟨⟨(k.layout.edge e.key, payload), mem_liveUnder.mpr ⟨hstart, hlive⟩, he⟩, rfl⟩

/-- The store answers by its content. -/
theorem gives (h : k.DecodesInPlace) : (Store.keyed k).Gives k.content where
  node? := h.node?_eq
  edgesFrom := h.edgesFrom_eq

theorem node_eq_ok_iff (h : k.DecodesInPlace) {id : String} {n : Node} :
    k.node id = .ok n ↔ k.content.node? id = some n := by
  unfold Keyed.node
  rw [h.node?_eq]
  cases k.content.node? id with
  | none => simp [bind, Except.bind]
  | some m => simp [bind, Except.bind, pure, Except.pure]

theorem shows_iff (h : k.DecodesInPlace) {e : Edge} : k.Shows e .outgoing ↔ k.content.edge? e.key = some e := by
  obtain ⟨edges, hedges, hmem⟩ := h.edgesFrom_eq e.source
  constructor
  · rintro ⟨found, hfound, he⟩
    obtain rfl : edges = found := Except.ok.inj (hedges.symm.trans hfound)
    exact ((hmem e).mp he).1
  · intro he
    exact ⟨edges, hedges, (hmem e).mpr ⟨he, rfl⟩⟩

end DecodesInPlace

/-! ## Steps -/

/-- An edge that is found at the one node leads to the other, and this one is found. -/
def StepsTo (k : Keyed) (a b : String) : Prop :=
  (∃ e : Edge, k.Shows e .outgoing ∧ e.source = a ∧ e.target = b) ∧ ∃ n, k.node b = .ok n

/-- At most so many steps lead from the root to the node. -/
def Reaches (k : Keyed) (root : String) (depth : Nat) (id : String) : Prop :=
  ∃ n ≤ depth, Walk k.StepsTo root n id

namespace DecodesInPlace

theorem stepsTo_iff (h : k.DecodesInPlace) {a b : String} :
    k.StepsTo a b ↔ k.content.Leads a b ∧ k.content.hasNode b = true := by
  unfold StepsTo Content.Leads Content.hasNode
  simp only [h.shows_iff, h.node_eq_ok_iff, Option.isSome_iff_exists]

theorem reaches_iff (h : k.DecodesInPlace) (hroot : k.content.hasNode root = true) {depth : Nat} {id : String} :
    k.Reaches root depth id ↔ k.content.Within root depth id := by
  have hwalk : ∀ n, Walk k.StepsTo root n id ↔ k.content.Hops root n id := by
    -- A step ends at a node that is found, and that the root is found starts the hops.
    intro n
    constructor
    · intro walk
      induction walk with
      | start => exact .root hroot
      | step _ hstep ih =>
          obtain ⟨leads, stored⟩ := h.stepsTo_iff.mp hstep
          exact .step ih leads stored
    · intro hops
      induction hops with
      | root => exact .start
      | step _ leads stored ih => exact .step ih (h.stepsTo_iff.mpr ⟨leads, stored⟩)
  simp only [Reaches, Content.Within, hwalk]

/-- **A load** gives what the root reaches, where the records are in their places. -/
theorem exists_loadGraph (h : k.DecodesInPlace) {r : Node} (hroot : k.node root = .ok r) (maxDepth : UInt64) :
    ∃ g, k.loadGraph root maxDepth = .ok g ∧ g.IsIndexed ∧
      (∀ id n, g.node? id = some n ↔ k.node id = .ok n ∧ k.Reaches root maxDepth.toNat id) ∧
      ∀ key e, g.edge? key = some e ↔ (e.key = key ∧ k.Shows e .outgoing) ∧
        k.Reaches root maxDepth.toNat key.source ∧ k.Reaches root maxDepth.toNat key.target := by
  have hstored : k.content.hasNode root = true :=
    Option.isSome_iff_exists.mpr ⟨r, h.node_eq_ok_iff.mp hroot⟩
  obtain ⟨g, hrun, hloaded⟩ := (Keyed.loads h.gives root maxDepth).stored hstored
  refine ⟨g, hrun, hloaded.toIsIndexed, fun id n => ?_, fun key e => ?_⟩
  · rw [hloaded.node?_iff, h.node_eq_ok_iff, h.reaches_iff hstored]
  · rw [hloaded.edge?_iff, h.reaches_iff hstored, h.reaches_iff hstored]
    refine and_congr_left fun _ => ?_
    constructor
    · intro he
      obtain rfl := k.content.key_eq he
      exact ⟨rfl, h.shows_iff.mpr he⟩
    · rintro ⟨rfl, hshows⟩
      exact h.shows_iff.mp hshows

end DecodesInPlace

/-- **Loading is exact.** From any keyed store that can come about and whose records can be read, a load from
a node that is found never fails. It gives the nodes that are found within the depth, and the edges found at
them that lead from one of them to another. -/
theorem CanArise.loadGraph_exact (h : k.CanArise) (hdecodes : k.Decodes) {r : Node} (hroot : k.node root = .ok r)
    (maxDepth : UInt64) :
    ∃ g, k.loadGraph root maxDepth = .ok g ∧ g.IsIndexed ∧
      (∀ id n, g.node? id = some n ↔ k.node id = .ok n ∧ k.Reaches root maxDepth.toNat id) ∧
      ∀ key e, g.edge? key = some e ↔ (e.key = key ∧ k.Shows e .outgoing) ∧
        k.Reaches root maxDepth.toNat key.source ∧ k.Reaches root maxDepth.toNat key.target :=
  (h.decodesInPlace hdecodes).exists_loadGraph hroot maxDepth

/-- A way back to the root, an edge to a node that has expired and one from the node at the bound to a node
beyond it: one step leads to two nodes, with the edges between them. -/
theorem CanArise.loadGraph_exact_wayBack :
    let node (id : String) := Node.ofCore id (.module id id)
    let edge (source target : String) := Edge.ofCore source target (.plain .calls)
    let settings := { KeyedSettings.standard with keyRoot := "g", defaultLife := some (.ofSeconds 1) }
    let before := ["x"].map node |>.foldl saveNode (.ofEntries settings ∅ 0)
    let saved := ["a", "b", "c"].map node |>.foldl saveNode { before with now := 600 }
    let edges := [edge "a" "b", edge "b" "a", edge "a" "x", edge "b" "c"]
    let k : Keyed := { edges.foldl saveEdge saved with now := 1200 }
    k.CanArise ∧ k.Decodes ∧ (k.node "a").isOk = true ∧
      ∃ g, k.loadGraph "a" 1 = .ok g ∧ g.IsIndexed ∧
        (∀ id n, g.node? id = some n ↔ k.node id = .ok n ∧ k.Reaches "a" 1 id) ∧
        (∀ key e, g.edge? key = some e ↔ (e.key = key ∧ k.Shows e .outgoing) ∧
          k.Reaches "a" 1 key.source ∧ k.Reaches "a" 1 key.target) ∧
        g.nodeList.map Node.id = ["a", "b"] ∧
        g.edgeList.map Edge.key = [⟨"a", "b", .calls⟩, ⟨"b", "a", .calls⟩] := by
  intro node edge settings before saved edges k
  have hk : k.CanArise :=
    ((((CanArise.fresh settings 0).saveNodes (by decide +kernel)).atMoment 600).saveNodes
      (by decide +kernel)).saveEdges (by decide +kernel) |>.atMoment 1200
  have hdecodes : k.Decodes := by
    rw [decodes_iff]
    simp only [liveUnder, ByteMap.scan_eq_filter]
    decide +kernel
  have hroot : (k.node "a").isOk = true := by decide +kernel
  obtain ⟨r, hr⟩ := isOk_iff.mp hroot
  obtain ⟨g, hrun, hindexed, hnodes, hedges⟩ := hk.loadGraph_exact hdecodes hr 1
  have hvalue : (k.loadGraph "a" 1).toOption.map (fun g => (g.nodeList.map Node.id, g.edgeList.map Edge.key)) =
      some (["a", "b"], [⟨"a", "b", .calls⟩, ⟨"b", "a", .calls⟩]) := by
    simp only [loadGraph, reader, RecordReader.load, edgesFrom, edgesUnder, liveUnder, ByteMap.scan_eq_filter]
    decide +kernel
  rw [hrun] at hvalue
  obtain ⟨hids, hkeys⟩ := Prod.mk.inj (Option.some.inj hvalue)
  exact ⟨hk, hdecodes, hroot, g, hrun, hindexed, hnodes, hedges, hids, hkeys⟩

end ProgramGraph.Keyed
