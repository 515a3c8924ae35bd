import ProgramGraph.Proofs.Delta.Stored
import ProgramGraph.Proofs.Graph.Reachable
import ProgramGraph.Proofs.Node.Content
import ProgramGraph.Proofs.Store.Carries

set_option autoImplicit false

/-! # A store after a change set

A store into which the old graph was saved is led to a copy of the new graph by the change set
between the two, in a transaction or not (`Delta.store_between`). The kinds of store take different
edges along with a deleted node, and inside a transaction a keyed store looks up what there is to
delete in the old graph. Neither shows in the end. An edge that is to stay touches no node that goes,
and an edge that is to go is deleted by name before any node is.
-/

namespace ProgramGraph

/-! ## Copies of a graph -/

/-- The content has the nodes of the graph, with their content, and edges with the keys of the graph. -/
structure Content.Copies (c : Content) (g : Graph) : Prop where
  node : ∀ {id n}, g.node? id = some n → ∃ m, c.node? id = some m ∧ m.sameContent n = true
  missing : ∀ {id}, g.node? id = none → c.node? id = none
  hasEdge : ∀ key, c.hasEdge key = g.hasEdge key

/-- **The store answers as a copy of the graph**: with the content of each node, with the failure for
a missing node under every other identifier, and with just the edges of the graph at every node,
whether it is there or not. -/
structure Store.IsCopyOf (s : Store) (g : Graph) : Prop where
  node : ∀ {id n}, g.node? id = some n → ∃ m, s.node id = .ok m ∧ m.sameContent n = true
  missing : ∀ {id}, g.node? id = none → s.node id = .error (.nodeMissing id)
  edgesFrom : ∀ id, ∃ found, s.edgesFrom id none none = .ok found ∧
    Enumerates (fun key => g.hasEdge key = true ∧ key.source = id) (found.map Edge.key)
  edgesTo : ∀ id, ∃ found, s.edgesTo id none = .ok found ∧
    Enumerates (fun key => g.hasEdge key = true ∧ key.target = id) (found.map Edge.key)
  loose : ∀ {id}, g.hasNode id = false → s.edgesFrom id none none = .ok [] ∧ s.edgesTo id none = .ok []

/-- What every kind of store asks of a graph that it is to give back: no extra property has the name
of one of the core, and floats are kept by JSON. -/
structure Graph.IsStorable (g : Graph) : Prop where
  nodes : ∀ n ∈ g.nodeList, n.IsApart ∧ n.extra.KeepsFloats
  edges : ∀ e ∈ g.edgeList, e.IsApart ∧ e.extra.KeepsFloats

namespace Store

variable {s : Store} {c : Content} {g : Graph}

/-- The store answers questions for nodes by identifier and for edges by the content. -/
structure ShowsRecords (s : Store) (c : Content) : Prop where
  node : ∀ id, s.node id = (c.node? id).elim (.error (.nodeMissing id)) .ok
  edgesFrom : ∀ source, ∃ keys, Enumerates (c.HasEdgeIn fun key => key.source = source) keys ∧
    s.edgesFrom source none none = .ok (keys.filterMap c.edge?)
  edgesTo : ∀ target, ∃ keys, Enumerates (c.HasEdgeIn fun key => key.target = target) keys ∧
    s.edgesTo target none = .ok (keys.filterMap c.edge?)

/-- A store that shows a copy is one. -/
theorem ShowsRecords.isCopyOf (h : s.ShowsRecords c) (hg : g.IsIndexed) (hc : c.Copies g) :
    s.IsCopyOf g where
  node hn := by
    obtain ⟨m, hm, hsame⟩ := hc.node hn
    refine ⟨m, ?_, hsame⟩
    rw [h.node, hm]
    rfl
  missing hn := by
    rw [h.node, hc.missing hn]
    rfl
  edgesFrom id := by
    obtain ⟨keys, hkeys, hfound⟩ := h.edgesFrom id
    refine ⟨_, hfound, ?_⟩
    rw [Content.map_key_filterMap hkeys]
    exact hkeys.congr fun key => by rw [Content.HasEdgeIn, hc.hasEdge, decide_eq_true_eq]
  edgesTo id := by
    obtain ⟨keys, hkeys, hfound⟩ := h.edgesTo id
    refine ⟨_, hfound, ?_⟩
    rw [Content.map_key_filterMap hkeys]
    exact hkeys.congr fun key => by rw [Content.HasEdgeIn, hc.hasEdge, decide_eq_true_eq]
  loose {id} hid := by
    -- The edges are those of the graph, and in a graph no edge touches a node that is missing.
    have hnone : ∀ {end_ : EdgeKey → Bool}, (∀ key, end_ key = true → key.Touches id) →
        ∀ {keys}, Enumerates (c.HasEdgeIn end_) keys → keys.filterMap c.edge? = [] := by
      intro end_ htouches keys hkeys
      have : keys = [] := List.eq_nil_iff_forall_not_mem.mpr fun key hkey => by
        obtain ⟨hthere, hend⟩ := (hkeys.mem_iff key).mp hkey
        rw [hc.hasEdge] at hthere
        exact hg.not_touches hid hthere (htouches key hend)
      rw [this, List.filterMap_nil]
    obtain ⟨leaving, hleaving, hfrom⟩ := h.edgesFrom id
    obtain ⟨reaching, hreaching, hto⟩ := h.edgesTo id
    rw [hfrom, hto, hnone (fun _ hend => .inl (of_decide_eq_true hend)) hleaving,
      hnone (fun _ hend => .inr (of_decide_eq_true hend)) hreaching]
    exact ⟨rfl, rfl⟩

/-- A store that carries the records of a content shows them. -/
theorem CarriesBy.showsRecords {used : String → Prop} {unambiguous : Unambiguous used} {b : Backend}
    (h : s.CarriesBy (.records unambiguous) b c) : s.ShowsRecords c := by
  cases h with
  | table _ sound holds =>
      have hshows := Table.shows (.inl sound) holds
      refine ⟨hshows.node, fun source => ?_, fun target => ?_⟩
      · obtain ⟨keys, hkeys, hfound⟩ := hshows.edgesFrom source none none
        exact ⟨keys, hkeys.congr fun key => by simp [Content.HasEdgeIn], hfound⟩
      · obtain ⟨keys, hkeys, hfound⟩ := hshows.edgesTo target none
        exact ⟨keys, hkeys.congr fun key => by simp [Content.HasEdgeIn], hfound⟩
  | @keyed k _ _ _ holds =>
      refine ⟨fun id => ?_, fun source => ?_, fun target => ?_⟩
      · show k.node id = _
        rw [Keyed.node, Keyed.HoldsRecords.node?_eq holds unambiguous]
        cases c.node? id <;> rfl
      · obtain ⟨keys, hkeys, hfound⟩ := Keyed.HoldsRecords.edgesFrom_eq holds unambiguous source none none
        exact ⟨keys, hkeys.congr fun key => by simp [Content.HasEdgeIn], hfound⟩
      · obtain ⟨keys, hkeys, hfound⟩ := Keyed.HoldsRecords.edgesTo_eq holds unambiguous target none
        exact ⟨keys, hkeys.congr fun key => by simp [Content.HasEdgeIn], hfound⟩

end Store

/-! ## Contents -/

namespace Content

variable {g : Graph}

/-- A graph that was put into nothing is all there is. -/
theorem putGraph_spec (h : g.IsSound) (policy : Policy) :
    (∀ id, ((∅ : Content).putGraph policy g).node? id = (g.node? id).map Node.reread) ∧
      ∀ key, ((∅ : Content).putGraph policy g).hasEdge key = g.hasEdge key := by
  -- Saving looks nothing up, so it makes no difference where a store would look.
  let direct : Policy := { policy with looksBack := false }
  have hput : (∅ : Content).putGraph policy g =
      (g.edgeList.map Store.Operation.saveEdge).foldl (next direct ∅)
        ((g.nodeList.map Store.Operation.saveNode).foldl (next direct ∅) ∅) := by
    rw [List.foldl_map, List.foldl_map]
    rfl
  obtain ⟨hother, hsaved, hedgeless⟩ := saveNodes_spec direct ∅ ∅ g.nodeList
  obtain ⟨hnode, hedge⟩ := saveEdges_spec direct ∅
    ((g.nodeList.map Store.Operation.saveNode).foldl (next direct ∅) ∅) g.edgeList
  rw [hput]
  refine ⟨fun id => (hnode id).trans ?_, fun key => (hedge key).trans ?_⟩
  · cases hn : g.node? id with
    | none =>
        refine hother id fun n hlisted hid => ?_
        rw [h.mem_nodeList, hid, hn] at hlisted
        cases hlisted
    | some n =>
        obtain rfl := h.id_eq hn
        refine hsaved n ((h.mem_nodeList n).mpr hn) fun m hm hid => ?_
        have hm := (h.mem_nodeList m).mp hm
        rw [hid] at hm
        exact Option.some.inj (hm.symm.trans hn)
  · have hnone : (∅ : Content).hasEdge key = false := rfl
    rw [hedgeless, hnone, Bool.or_false, Bool.eq_iff_iff, ← h.mem_map_key, List.any_eq_true, List.mem_map]
    exact exists_congr fun e => and_congr_right fun _ => by rw [decide_eq_true_eq, eq_comm]

end Content

namespace Delta

variable {old new : Graph} {c : Content}

/-- **The change set between two graphs** leads from what was stored of the old one to a copy of the
new one, whatever a kind of store takes along with a node and wherever it looks up edges. -/
theorem copies_after_between (hold : old.IsSound) (hnew : new.IsIndexed) (holdStorable : old.IsStorable)
    (hnewStorable : new.IsStorable) (hnode : ∀ id, c.node? id = (old.node? id).map Node.reread)
    (hedge : ∀ key, c.hasEdge key = old.hasEdge key) (policy : Policy) :
    (c.after policy (between old new).operations).Copies new := by
  have hexact : ∀ s ∈ (between old new).deletedEdges.toList, ∃ key, s = EdgeSelector.exact key :=
    exact_of_mem_deletedEdges hold
  have hstays : ∀ {id}, (∀ n ∈ (between old new).incomingNodes, n.id ≠ id) →
      (c.after policy (between old new).operations).node? id =
        if id ∈ (between old new).deletedNodes.toList then none else (old.node? id).map Node.reread :=
    fun hid => (node?_after_of_ne hexact hid).trans (by rw [hnode])
  refine ⟨fun {id n} hn => ?_, fun {id} hn => ?_, fun key => ?_⟩
  · obtain rfl := hnew.id_eq hn
    obtain ⟨hapart, hkeeps⟩ := hnewStorable.nodes n ((hnew.mem_nodeList n).mpr hn)
    by_cases hcomes : n ∈ (between old new).incomingNodes
    · refine ⟨n.reread, ?_, hapart.sameContent_reread hkeeps.hasNumbers⟩
      exact node?_after_of_mem hcomes fun m hm hid => eq_of_mem_incomingNodes hnew.toIsSound hm hcomes hid
    · -- The node does not come, so it was there with the same content, and stays.
      obtain ⟨hother, before, hbefore, hsame⟩ := exists_of_not_mem_incomingNodes hnew.toIsSound hn hcomes
      have hkept : n.id ∉ (between old new).deletedNodes.toList := by
        rw [mem_deletedNodes hold, Graph.hasNode_iff.mpr ⟨n, hn⟩]
        simp
      have hid := hold.id_eq hbefore
      have hlisted : before ∈ old.nodeList := (hold.mem_nodeList before).mpr (hid.symm ▸ hbefore)
      refine ⟨before.reread, ?_, ?_⟩
      · rw [hstays hother, if_neg hkept, hbefore]
        rfl
      · rw [(holdStorable.nodes before hlisted).1.reread_sameContent]
        exact hsame
  · rw [hstays (ne_of_mem_incomingNodes hnew.toIsSound hn)]
    cases hbefore : old.node? id with
    | none => simp
    | some before =>
        have hgoes : id ∈ (between old new).deletedNodes.toList :=
          (mem_deletedNodes hold).mpr
            ⟨Graph.hasNode_iff.mpr ⟨before, hbefore⟩, Graph.node?_eq_none_iff.mp hn⟩
        rw [if_pos hgoes]
  · -- An edge of the new graph touches no node that goes.
    have hkept : new.hasEdge key = true →
        ((between old new).deletedNodes.toList.any fun id => policy.takes id key) = false := by
      intro hthere
      rw [List.any_eq_false]
      intro id hid htakes
      exact hnew.not_touches ((mem_deletedNodes hold).mp hid).2 hthere (Policy.touches_of_takes htakes)
    have hadded : _ ↔ new.hasEdge key = true ∧ old.hasEdge key = false := any_addedEdges hnew.toIsSound key
    have hdeleted : _ ↔ old.hasEdge key = true ∧ new.hasEdge key = false := contains_deletedEdges hold key
    have hspared : (between old new).deletedEdges.toList.contains (.exact key) = false ↔
        ¬ (old.hasEdge key = true ∧ new.hasEdge key = false) := by rw [← hdeleted, Bool.not_eq_true]
    rw [hasEdge_after hexact, hedge, Bool.eq_iff_iff, Bool.or_eq_true, Bool.and_eq_true, Bool.and_eq_true,
      Bool.not_eq_true', Bool.not_eq_true', hadded, hspared]
    cases hthere : new.hasEdge key with
    | true => cases old.hasEdge key <;> simp [hkept hthere]
    | false => cases old.hasEdge key <;> simp

end Delta

/-! ## What a store is asked to do -/

namespace Backend

variable {used : String → Prop} (unambiguous : Unambiguous used) {b : Backend} {g : Graph}

/-- A graph may be saved whose nodes have used identifiers. -/
theorem suitsBy_saveGraph (hg : g.IsSound) (hstorable : g.IsStorable) {options : SaveOptions}
    (hkeyed : b = .rows ∨ g.Fits ∧ (∀ id, g.hasNode id = true → used id) ∧ ∀ d, options.life ≠ .span d) :
    b.SuitsBy (.records unambiguous) (.saveGraph g options) := by
  rcases b with _ | cascades
  · exact ⟨hstorable.nodes, hstorable.edges⟩
  · obtain ⟨hfits, hids, hlife⟩ := hkeyed.resolve_left (by simp)
    refine ⟨fun n hn => ⟨(hstorable.nodes n hn).1, hfits.nodes n hn⟩, fun e he => ?_, hlife⟩
    have hthere : g.hasEdge e.key = true := Graph.hasEdge_iff.mpr ⟨e, (hg.mem_edgeList e).mp he⟩
    exact ⟨(hstorable.edges e he).1, hfits.edges e he, hids _ (hg.source hthere),
      hids _ (hg.target hthere)⟩

/-- The operations of a change set may be made that deletes edges and saves records of graphs whose nodes
have used identifiers. -/
theorem suitsBy_of_mem_operations {old new : Graph} (hold : old.IsSound) (hnew : new.IsSound)
    (hstorable : new.IsStorable) (hkeyed : b = .rows ∨ new.Fits ∧
      (∀ id, old.hasNode id = true → used id) ∧ ∀ id, new.hasNode id = true → used id) :
    ∀ op ∈ (Delta.between old new).operations, b.SuitsBy (.records unambiguous) op := by
  intro op hop
  simp only [Delta.operations, List.mem_append, List.mem_map, or_assoc] at hop
  -- Rows ask for records that can be stored. A keyed store also asks that they fit and for used ends.
  rcases hop with ⟨s, hs, rfl⟩ | ⟨id, -, rfl⟩ | ⟨n, hn, rfl⟩ | ⟨e, he, rfl⟩
  · obtain ⟨key, rfl, hthere, -⟩ := (Delta.mem_deletedEdges hold).mp hs
    rcases b with _ | cascades
    · exact ⟨fun _ hn => absurd hn List.not_mem_nil, fun _ he => absurd he List.not_mem_nil⟩
    · obtain ⟨-, hids, -⟩ := hkeyed.resolve_left (by simp)
      exact fun _ => ⟨hids _ (hold.source hthere), hids _ (hold.target hthere)⟩
  · rcases b with _ | cascades
    · exact ⟨fun _ hn => absurd hn List.not_mem_nil, fun _ he => absurd he List.not_mem_nil⟩
    · exact trivial
  · have hn : n ∈ new.nodeList := (hnew.mem_nodeList n).mpr ((Delta.mem_incomingNodes hnew).mp hn).1
    rcases b with _ | cascades
    · exact ⟨fun m hm => List.mem_singleton.mp hm ▸ hstorable.nodes n hn,
        fun _ he => absurd he List.not_mem_nil⟩
    · obtain ⟨hfits, -⟩ := hkeyed.resolve_left (by simp)
      exact ⟨(hstorable.nodes n hn).1, hfits.nodes n hn⟩
  · have he : e ∈ new.edgeList := (hnew.mem_edgeList e).mpr ((Delta.mem_addedEdges hnew).mp he).1
    have hthere : new.hasEdge e.key = true := Graph.hasEdge_iff.mpr ⟨e, (hnew.mem_edgeList e).mp he⟩
    rcases b with _ | cascades
    · exact ⟨fun _ hn => absurd hn List.not_mem_nil,
        fun d hd => List.mem_singleton.mp hd ▸ hstorable.edges e he⟩
    · obtain ⟨hfits, -, hids⟩ := hkeyed.resolve_left (by simp)
      exact ⟨(hstorable.edges e he).1, hfits.edges e he, hids _ (hnew.source hthere),
        hids _ (hnew.target hthere)⟩

end Backend

/-- A fresh store carries nothing. -/
theorem Store.IsFresh.carriesBy {b : Backend} {s : Store} (h : s.IsFresh b) {used : String → Prop}
    (unambiguous : Unambiguous used) : s.CarriesBy (.records unambiguous) b ∅ := by
  cases h with
  | table settings => exact .table rfl rfl Rows.holds_empty
  | @keyed settings stays now =>
      exact .keyed (k := .ofEntries settings ∅ now) ⟨rfl, rfl⟩ stays (Keyed.holdsRecords_empty ..)

namespace Delta

/-- **A change set leads a stored graph to the other one.** The old graph is saved into a fresh store; at
any later time the changes are made, one by one or in a transaction; and at any time after that the store
is a copy of the new graph. A keyed store needs identifiers whose pairs can be told apart, records that
have a binary form, and no span of life. -/
theorem store_between {old new : Graph} (hold : old.Reachable) (hnew : new.Reachable)
    (holdStorable : old.IsStorable) (hnewStorable : new.IsStorable) {b : Backend} {s : Store}
    (fresh : s.IsFresh b) (options : SaveOptions)
    (suits : b = .rows ∨ Unambiguous (fun id => old.hasNode id = true ∨ new.hasNode id = true) ∧
      old.Fits ∧ new.Fits ∧ ∀ d, options.life ≠ .span d) :
    ∃ saved, s.saveGraph old options = .ok saved ∧ ∀ now,
      (∃ s', Action.Ends (between old new).store (saved.atMoment now) () s' ∧
        ∀ later, (s'.atMoment later).IsCopyOf new) ∧
      ∃ s', Action.Ends (Action.transaction (between old new).store) (saved.atMoment now) () s' ∧
        ∀ later, (s'.atMoment later).IsCopyOf new := by
  have hold := hold.isIndexed
  have hnew := hnew.isIndexed
  -- Only the entries of a keyed store depend on which identifiers are used.
  obtain ⟨used, unambiguous, hkeyed⟩ : ∃ used, Unambiguous used ∧ (b = .rows ∨ old.Fits ∧ new.Fits ∧
      (∀ id, old.hasNode id = true → used id) ∧ (∀ id, new.hasNode id = true → used id) ∧
        ∀ d, options.life ≠ .span d) := by
    rcases suits with hrows | ⟨unambiguous, holdFits, hnewFits, hlife⟩
    · exact ⟨fun _ => False, fun _ _ _ _ h => h.elim, .inl hrows⟩
    · exact ⟨_, unambiguous, .inr ⟨holdFits, hnewFits, fun _ => .inl, fun _ => .inr, hlife⟩⟩
  have hsave : b.SuitsBy (.records unambiguous) (.saveGraph old options) :=
    Backend.suitsBy_saveGraph unambiguous hold.toIsSound holdStorable
      (hkeyed.imp_right fun ⟨hfits, _, hids, _, hlife⟩ => ⟨hfits, hids, hlife⟩)
  have hops := Backend.suitsBy_of_mem_operations unambiguous hold.toIsSound hnew.toIsSound hnewStorable
    (hkeyed.imp_right fun ⟨_, hfits, hids, hids', _⟩ => ⟨hfits, hids, hids'⟩)
  obtain ⟨saved, hsaved, hcarries⟩ := (fresh.carriesBy unambiguous).perform hsave
  obtain ⟨hnode, hedge⟩ := Content.putGraph_spec hold.toIsSound b.policy
  have hcopies := fun policy =>
    copies_after_between hold.toIsSound hnew holdStorable hnewStorable hnode hedge policy
  refine ⟨saved, hsaved, fun now => ⟨?_, ?_⟩⟩
  · obtain ⟨s', hends, hs'⟩ := (hcarries.atMoment now).performEach hops
    rw [Content.afterEach_eq_after] at hs'
    exact ⟨s', hends, fun later => (hs'.atMoment later).showsRecords.isCopyOf hnew (hcopies _)⟩
  · obtain ⟨s', hends, hs'⟩ := (hcarries.atMoment now).transaction hops
    exact ⟨s', hends, fun later => (hs'.atMoment later).showsRecords.isCopyOf hnew (hcopies _)⟩

/-- In a keyed store that leaves the edges that reach a deleted node, a node goes that calls itself and is
called, another becomes a class, and of two relations between two nodes the other one is kept. -/
theorem store_between_becomesClass :
    let node (id : String) (core : NodeCore) : Node := ⟨id, core, .ofList [("rank", Property.int 3)]⟩
    let edge (source target : String) (kind : EdgeKind) := Edge.ofCore source target (.plain kind)
    let old : Graph := [edge "m" "m:f" .contains, edge "m" "m:g" .contains, edge "m:g" "m:g" .calls,
      edge "m:f" "m:g" .calls, edge "m" "m:f" .references].foldl Graph.attach
        ((∅ : Graph).addNodes [node "m" (.module "m" "m"), node "m:f" (.variable "f" "m.f"),
          node "m:g" (.variable "g" "m.g")])
    let new : Graph := [edge "m" "m:f" .contains, edge "m" "m:f" .defines, edge "m:f" "m:f" .inherits].foldl
      Graph.attach ((∅ : Graph).addNodes [node "m" (.module "m" "m"),
        node "m:f" (.classDef "f" "m.f" 1 9 [] [])])
    let settings := { KeyedSettings.standard with defaultLife := none, cascadeIncoming := false }
    ∃ saved, (Store.keyed (.ofEntries settings ∅ 0)).saveGraph old .standard = .ok saved ∧ ∀ now,
      (∃ s', Action.Ends (between old new).store (saved.atMoment now) () s' ∧
        ∀ later, (s'.atMoment later).IsCopyOf new) ∧
      ∃ s', Action.Ends (Action.transaction (between old new).store) (saved.atMoment now) () s' ∧
        ∀ later, (s'.atMoment later).IsCopyOf new := by
  intro node edge old new settings
  have hold : old.Reachable := (Graph.Reachable.empty.addNodes _).attachAll _
  have hnew : new.Reachable := (Graph.Reachable.empty.addNodes _).attachAll _
  have hused : Unambiguous fun id => old.hasNode id = true ∨ new.hasNode id = true := by
    have hids : old.nodes.keys = ["m", "m:f", "m:g"] ∧ new.nodes.keys = ["m", "m:f"] := by decide +kernel
    have honly : ∀ id, old.hasNode id = true ∨ new.hasNode id = true → id ∈ ["m", "m:f", "m:g"] := by
      rintro id (hid | hid)
      · exact hids.1 ▸ Std.TreeMap.mem_keys.mpr hid
      · exact List.mem_append_left ["m:g"] (hids.2 ▸ Std.TreeMap.mem_keys.mpr hid)
    have hpairs : ∀ a ∈ ["m", "m:f", "m:g"], ∀ b ∈ ["m", "m:f", "m:g"], ∀ c ∈ ["m", "m:f", "m:g"],
        ∀ d ∈ ["m", "m:f", "m:g"], a ++ ":" ++ b = c ++ ":" ++ d → a = c ∧ b = d := by decide +kernel
    exact fun a b c d ha hb hc hd =>
      hpairs a (honly a ha) b (honly b hb) c (honly c hc) d (honly d hd)
  have hnotFloat : ∀ {props : Properties}, (∀ entry ∈ props.toList, entry.2.kindName ≠ "float") →
      props.KeepsFloats := by
    intro props hnames
    have hlacks : props.LacksFloats := fun key x hx =>
      hnames _ (Std.TreeMap.mem_toList_iff_getElem?_eq_some.mpr hx) rfl
    exact hlacks.keepsFloats
  have hnodes : ∀ n ∈ old.nodeList ++ new.nodeList, n.IsApart ∧ n.extra.KeepsFloats := by
    have hextra : ∀ n ∈ old.nodeList ++ new.nodeList,
        (∀ entry ∈ n.extra.toList, entry.2.kindName ≠ "float") ∧
          ∀ key ∈ NodeCore.keys n.kind, n.extra[key]?.isNone = true := by decide +kernel
    exact fun n hn => ⟨fun key hkey => Option.isNone_iff_eq_none.mp ((hextra n hn).2 key hkey),
      hnotFloat (hextra n hn).1⟩
  have hedges : ∀ e ∈ old.edgeList ++ new.edgeList, e.IsApart ∧ e.extra.KeepsFloats := by
    have hextra : ∀ e ∈ old.edgeList ++ new.edgeList,
        (∀ entry ∈ e.extra.toList, entry.2.kindName ≠ "float") ∧
          ∀ key ∈ EdgeCore.keys e.kind, e.extra[key]?.isNone = true := by decide +kernel
    exact fun e he => ⟨fun key hkey => Option.isNone_iff_eq_none.mp ((hextra e he).2 key hkey),
      hnotFloat (hextra e he).1⟩
  exact store_between hold hnew
    ⟨fun n hn => hnodes n (List.mem_append_left _ hn), fun e he => hedges e (List.mem_append_left _ he)⟩
    ⟨fun n hn => hnodes n (List.mem_append_right _ hn), fun e he => hedges e (List.mem_append_right _ he)⟩
    (.keyed rfl 0) .standard
    (.inr ⟨hused, by decide +kernel, by decide +kernel, fun d => by simp [SaveOptions.standard]⟩)

end Delta

end ProgramGraph
