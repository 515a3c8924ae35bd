import ProgramGraph.Delta.Stored
import ProgramGraph.Proofs.Delta.Between
import ProgramGraph.Proofs.Store.Content
import ProgramGraph.Sync.Updater

set_option autoImplicit false

/-! # A content after a change set

The operations of a change set are deletions of single edges and of nodes, and then savings of
nodes and edges. The content after them can be said at once: `hasEdge_after` and `node?_after`.
Whether a transaction sees its own changes makes no difference, because what is looked up is
looked up before anything is saved.
-/

namespace ProgramGraph

/-! ## Contents -/

/-- The edge with the key goes with a deleted node. -/
def Policy.takes (policy : Policy) (id : String) (key : EdgeKey) : Bool :=
  key.source = id || (policy.cascades && key.target = id)

/-- An edge goes only with a node that it touches. -/
theorem Policy.touches_of_takes {policy : Policy} {id : String} {key : EdgeKey}
    (h : policy.takes id key = true) : key.source = id ∨ key.target = id := by
  simp only [takes, Bool.or_eq_true, Bool.and_eq_true, decide_eq_true_eq] at h
  exact h.imp_right And.right

namespace Content

variable (policy : Policy) (c : Content)

/-- One operation of a transaction that began with the content. -/
def next (acc : Content) (op : Store.Operation) : Content :=
  acc.step policy (if policy.looksBack then c else acc) op

variable (acc : Content)

/-- What is left after edges are deleted one by one. -/
theorem deleteEdges_spec {selectors : List EdgeSelector}
    (hexact : ∀ s ∈ selectors, ∃ key, s = EdgeSelector.exact key) :
    let result := (selectors.map fun s => Store.Operation.deleteEdge s.source s.target s.kind).foldl
      (next policy c) acc
    (∀ id, result.node? id = acc.node? id) ∧
      ∀ key, result.hasEdge key = (acc.hasEdge key && !selectors.contains (.exact key)) := by
  induction selectors generalizing acc with
  | nil => exact ⟨fun _ => rfl, fun _ => by simp⟩
  | cons s rest ih =>
      obtain ⟨first, rfl⟩ := hexact s List.mem_cons_self
      obtain ⟨hnode, hedge⟩ := ih (acc.drop (fun _ => false) fun key => key = first)
        fun d hd => hexact d (List.mem_cons_of_mem _ hd)
      refine ⟨fun id => (hnode id).trans rfl, fun key => (hedge key).trans ?_⟩
      have hinj : (EdgeSelector.exact key == EdgeSelector.exact first) = decide (key = first) := by
        by_cases hsame : key = first
        · rw [hsame, decide_eq_true rfl, beq_self_eq_true]
        · rw [decide_eq_false hsame, beq_eq_false_iff_ne, ne_eq, EdgeSelector.exact_inj]
          exact hsame
      rw [hasEdge_drop, List.contains_cons, hinj]
      cases decide (key = first) <;> cases acc.hasEdge key <;> simp

variable {acc}

/-- What is left after nodes are deleted one by one. A transaction that looks back looks up the
edges of a deleted node in the content that it began with, which has all edges there still are. -/
theorem deleteNodes_spec {ids : List String} (hle : ∀ key, acc.hasEdge key = true → c.hasEdge key = true) :
    let result := (ids.map Store.Operation.deleteNode).foldl (next policy c) acc
    (∀ id, result.node? id = if id ∈ ids then none else acc.node? id) ∧
      ∀ key, result.hasEdge key = (acc.hasEdge key && !ids.any fun id => policy.takes id key) := by
  induction ids generalizing acc with
  | nil => exact ⟨fun _ => by simp, fun _ => by simp⟩
  | cons first rest ih =>
      have hstep : ∀ key, (next policy c acc (.deleteNode first)).hasEdge key =
          (acc.hasEdge key && !policy.takes first key) := by
        intro key
        show (acc.drop _ _).hasEdge key = _
        rw [hasEdge_drop]
        cases hacc : acc.hasEdge key with
        | false => simp
        | true =>
            -- Wherever the edges are looked up, this one is found there.
            have hbase : (if policy.looksBack then c else acc).hasEdge key = true := by
              split
              · exact hle key hacc
              · exact hacc
            rw [hbase]
            simp [Policy.takes]
      obtain ⟨hnode, hedge⟩ := ih fun key hkey =>
        hle key (by rw [hstep, Bool.and_eq_true] at hkey; exact hkey.1)
      refine ⟨fun id => (hnode id).trans ?_, fun key => (hedge key).trans ?_⟩
      · show (if id ∈ rest then none else if decide (id = first) = true then none else acc.node? id) = _
        by_cases hfirst : id = first <;> by_cases hrest : id ∈ rest <;> simp [hfirst, hrest]
      · rw [hstep, List.any_cons, Bool.not_or, Bool.and_assoc]

variable (acc)

/-- What is there after nodes are saved one by one. -/
theorem saveNodes_spec (nodes : List Node) :
    let result := (nodes.map Store.Operation.saveNode).foldl (next policy c) acc
    (∀ id, (∀ n ∈ nodes, n.id ≠ id) → result.node? id = acc.node? id) ∧
      (∀ n ∈ nodes, (∀ m ∈ nodes, m.id = n.id → m = n) → result.node? n.id = some n.reread) ∧
      ∀ key, result.hasEdge key = acc.hasEdge key := by
  induction nodes generalizing acc with
  | nil => exact ⟨fun _ _ => rfl, fun _ h => (List.not_mem_nil h).elim, fun _ => rfl⟩
  | cons first rest ih =>
      obtain ⟨hother, hsaved, hedge⟩ := ih (acc.putNode first.reread)
      have hput : ∀ id, (acc.putNode first.reread).node? id =
          if id = first.id then some first.reread else acc.node? id := fun _ => rfl
      refine ⟨fun id hid => ?_, fun n hn hunique => ?_, fun key => (hedge key).trans rfl⟩
      · refine (hother id fun n hn => hid n (List.mem_cons_of_mem _ hn)).trans ?_
        rw [hput, if_neg fun heq => hid first List.mem_cons_self heq.symm]
      · -- The last node with the identifier counts, which is this one or one that equals it.
        by_cases hlater : ∃ m ∈ rest, m.id = n.id
        · obtain ⟨m, hm, hid⟩ := hlater
          obtain rfl := hunique m (List.mem_cons_of_mem _ hm) hid
          exact hsaved m hm fun k hk => hunique k (List.mem_cons_of_mem _ hk)
        · have hfirst : n = first := by
            rcases List.mem_cons.mp hn with rfl | hn
            · rfl
            · exact absurd ⟨n, hn, rfl⟩ hlater
          subst hfirst
          refine (hother n.id fun m hm hid => hlater ⟨m, hm, hid⟩).trans ?_
          rw [hput, if_pos rfl]

/-- What is there after edges are saved one by one. -/
theorem saveEdges_spec (edges : List Edge) :
    let result := (edges.map Store.Operation.saveEdge).foldl (next policy c) acc
    (∀ id, result.node? id = acc.node? id) ∧
      ∀ key, result.hasEdge key = ((edges.any fun e => decide (key = e.key)) || acc.hasEdge key) := by
  induction edges generalizing acc with
  | nil => exact ⟨fun _ => rfl, fun _ => rfl⟩
  | cons first rest ih =>
      obtain ⟨hnode, hedge⟩ := ih (acc.putEdge policy.replaces first.reread)
      refine ⟨fun id => (hnode id).trans rfl, fun key => (hedge key).trans ?_⟩
      rw [hasEdge_putEdge, Edge.reread_key, List.any_cons]
      cases decide (key = first.key) <;> simp

variable {c acc}

/-- An operation that saves no edge leaves edges as they are, or takes them out. -/
theorem edge?_of_step {op : Store.Operation} (hop : op.savedEdges = []) {base : Content} {key : EdgeKey}
    {e : Edge} (h : (acc.step policy base op).edge? key = some e) : acc.edge? key = some e := by
  have hdrop : ∀ {nodes : String → Bool} {edges : EdgeKey → Bool},
      (acc.drop nodes edges).edge? key = some e → acc.edge? key = some e := by
    intro nodes edges hkept
    replace hkept : (if edges key then none else acc.edge? key) = some e := hkept
    split at hkept
    · cases hkept
    · exact hkept
  cases op with
  | saveNode n => exact h
  | saveEdge d => cases hop
  | saveGraph g atOnce =>
      have hnodes : ∀ (nodes : List Node) (start : Content),
          (nodes.foldl (fun acc n => acc.putNode n.reread) start).edge? key = start.edge? key := by
        intro nodes
        induction nodes with
        | nil => exact fun start => rfl
        | cons n rest ih => exact fun start => ih (start.putNode n.reread)
      have hedges : g.edgeList = [] := hop
      rw [step, putGraph, hedges, List.foldl_nil, hnodes] at h
      exact h
  | deleteNode id => exact hdrop h
  | deleteEdge source target kind => cases kind <;> exact hdrop h
  | clear => exact hdrop h

/-- So do operations one after the other. -/
theorem edge?_of_steps {ops : List Store.Operation} (hops : ∀ op ∈ ops, op.savedEdges = []) {key : EdgeKey}
    {e : Edge} (h : (ops.foldl (next policy c) acc).edge? key = some e) : acc.edge? key = some e := by
  induction ops generalizing acc with
  | nil => exact h
  | cons op rest ih =>
      exact edge?_of_step policy (hops op List.mem_cons_self)
        (ih (fun o ho => hops o (List.mem_cons_of_mem _ ho)) h)

/-- Edges with other keys are left as they are while edges are saved. -/
theorem edge?_saveEdges_of_ne {edges : List Edge} {key : EdgeKey} (hother : ∀ e ∈ edges, e.key ≠ key) :
    ((edges.map Store.Operation.saveEdge).foldl (next policy c) acc).edge? key = acc.edge? key := by
  induction edges generalizing acc with
  | nil => rfl
  | cons first rest ih =>
      have hne : key ≠ first.reread.key := by
        rw [Edge.reread_key]
        exact (hother first List.mem_cons_self).symm
      rw [List.map_cons, List.foldl_cons, ih fun e he => hother e (List.mem_cons_of_mem _ he)]
      exact if_neg hne

/-- A saved edge is there if none had its key, and stays if no other has. -/
theorem edge?_saveEdges_of_mem {edges : List Edge} {e : Edge} (hunique : ∀ d ∈ edges, d.key = e.key → d = e)
    (hstart : acc.edge? e.key = some e.reread ∨ (e ∈ edges ∧ acc.edge? e.key = none)) :
    ((edges.map Store.Operation.saveEdge).foldl (next policy c) acc).edge? e.key = some e.reread := by
  induction edges generalizing acc with
  | nil => exact hstart.resolve_right fun h => (nomatch h.1)
  | cons first rest ih =>
      have hput : (next policy c acc (.saveEdge first)).edge? e.key =
          if e.key = first.key then (if policy.replaces then some first.reread
            else (acc.edge? e.key).or (some first.reread)) else acc.edge? e.key := by
        rw [← Edge.reread_key first]
        rfl
      apply ih fun d hd => hunique d (List.mem_cons_of_mem _ hd)
      -- With its own key the edge is stored now. With any other it waits in the rest, or was stored before.
      by_cases hkey : first.key = e.key
      · obtain rfl := hunique first List.mem_cons_self hkey
        left
        rw [hput, if_pos rfl]
        rcases hstart with hthere | ⟨-, hnone⟩
        · rw [hthere]
          cases policy.replaces <;> rfl
        · rw [hnone]
          cases policy.replaces <;> rfl
      · rw [hput, if_neg (Ne.symm hkey)]
        refine hstart.imp_right fun h => ⟨(List.mem_cons.mp h.1).resolve_left fun heq => ?_, h.2⟩
        exact hkey (heq ▸ rfl)

end Content

/-! ## Change sets -/

namespace Delta

variable {policy : Policy} {c : Content} {d : Delta}

theorem after_eq (policy : Policy) (c : Content) (d : Delta) :
    c.after policy d.operations = (d.addedEdges.map Store.Operation.saveEdge).foldl (c.next policy)
      ((d.incomingNodes.map Store.Operation.saveNode).foldl (c.next policy)
        ((d.deletedNodes.toList.map Store.Operation.deleteNode).foldl (c.next policy)
          ((d.deletedEdges.toList.map fun s => Store.Operation.deleteEdge s.source s.target s.kind).foldl
            (c.next policy) c))) := by
  rw [Content.after, operations, List.foldl_append, List.foldl_append, List.foldl_append]
  rfl

/-- **The edges** after a change set that deletes single edges. -/
theorem hasEdge_after (hexact : ∀ s ∈ d.deletedEdges.toList, ∃ key, s = EdgeSelector.exact key)
    (key : EdgeKey) :
    (c.after policy d.operations).hasEdge key =
      ((d.addedEdges.any fun e => decide (key = e.key)) ||
        (c.hasEdge key && !d.deletedEdges.toList.contains (.exact key) &&
          !d.deletedNodes.toList.any fun id => policy.takes id key)) := by
  obtain ⟨-, hedges⟩ := Content.deleteEdges_spec policy c c hexact
  rw [after_eq, (Content.saveEdges_spec ..).2, (Content.saveNodes_spec ..).2.2, (Content.deleteNodes_spec _ _ ?_).2,
    hedges]
  intro key hkey
  rw [hedges, Bool.and_eq_true] at hkey
  exact hkey.1

/-- **The nodes** after a change set: what does not come stays unless it is deleted. -/
theorem node?_after_of_ne (hexact : ∀ s ∈ d.deletedEdges.toList, ∃ key, s = EdgeSelector.exact key)
    {id : String} (hid : ∀ n ∈ d.incomingNodes, n.id ≠ id) :
    (c.after policy d.operations).node? id =
      if id ∈ d.deletedNodes.toList then none else c.node? id := by
  obtain ⟨hnodes, hedges⟩ := Content.deleteEdges_spec policy c c hexact
  rw [after_eq, (Content.saveEdges_spec ..).1, (Content.saveNodes_spec ..).1 id hid, (Content.deleteNodes_spec _ _ ?_).1,
    hnodes]
  intro key hkey
  rw [hedges, Bool.and_eq_true] at hkey
  exact hkey.1

/-- What comes is there. -/
theorem node?_after_of_mem {n : Node} (hn : n ∈ d.incomingNodes)
    (hunique : ∀ m ∈ d.incomingNodes, m.id = n.id → m = n) :
    (c.after policy d.operations).node? n.id = some n.reread := by
  rw [after_eq, (Content.saveEdges_spec ..).1, (Content.saveNodes_spec ..).2.1 n hn hunique]

/-- What is there before edges are added was there at the beginning. -/
theorem edge?_of_before_added {key : EdgeKey} {e : Edge}
    (h : ((d.incomingNodes.map Store.Operation.saveNode).foldl (c.next policy)
        ((d.deletedNodes.toList.map Store.Operation.deleteNode).foldl (c.next policy)
          ((d.deletedEdges.toList.map fun s => Store.Operation.deleteEdge s.source s.target s.kind).foldl
            (c.next policy) c))).edge? key = some e) : c.edge? key = some e := by
  rw [← List.foldl_append, ← List.foldl_append] at h
  refine Content.edge?_of_steps policy (fun op hop => ?_) h
  simp only [List.mem_append, List.mem_map] at hop
  rcases hop with ⟨s, -, rfl⟩ | ⟨id, -, rfl⟩ | ⟨n, -, rfl⟩ <;> rfl

/-- **An edge that does not come** stays as it is, if it stays. -/
theorem edge?_after_of_ne {key : EdgeKey} (hother : ∀ e ∈ d.addedEdges, e.key ≠ key)
    (hthere : (c.after policy d.operations).hasEdge key = true) :
    (c.after policy d.operations).edge? key = c.edge? key := by
  obtain ⟨e, he⟩ := Option.isSome_iff_exists.mp hthere
  rw [he]
  rw [after_eq, Content.edge?_saveEdges_of_ne policy hother] at he
  exact (edge?_of_before_added he).symm

/-- **An edge that comes** is there if there was none with its key. -/
theorem edge?_after_of_mem {e : Edge} (he : e ∈ d.addedEdges) (hunique : ∀ k ∈ d.addedEdges, k.key = e.key → k = e)
    (hmissing : c.hasEdge e.key = false) :
    (c.after policy d.operations).edge? e.key = some e.reread := by
  rw [after_eq]
  refine Content.edge?_saveEdges_of_mem policy hunique (.inr ⟨he, ?_⟩)
  rw [Option.eq_none_iff_forall_ne_some]
  intro k hk
  rw [Content.hasEdge, edge?_of_before_added hk] at hmissing
  cases hmissing

/-- A change set changes nothing if there is nothing to do. -/
theorem isEmpty_iff (d : Delta) : d.isEmpty = true ↔ d.operations = [] := by
  rw [isEmpty_iff_parts, operations]
  simp only [List.append_eq_nil_iff, List.map_eq_nil_iff, and_assoc]

/-! ### Sparing nodes of other files -/

section

variable (d : Delta) (previous : Graph) (path : String)

theorem deletedEdges_sparing : (d.sparing previous path).deletedEdges = d.deletedEdges := rfl

theorem incomingNodes_sparing : (d.sparing previous path).incomingNodes = d.incomingNodes := rfl

theorem addedEdges_sparing : (d.sparing previous path).addedEdges = d.addedEdges := rfl

end

variable {old new : Graph} {path : String}

theorem mem_deletedNodes_sparing (hold : old.IsSound) {id : String} :
    id ∈ ((between old new).sparing old path).deletedNodes.toList ↔
      ∃ n, old.node? id = some n ∧ new.hasNode id = false ∧ n.isOwnedBy path = true := by
  have hnodes : ((between old new).sparing old path).deletedNodes =
      Std.TreeSet.filter (fun id => (old.node? id).any fun n => n.isOwnedBy path)
        (between old new).deletedNodes := rfl
  rw [hnodes, Std.TreeSet.toList_filter, List.mem_filter, mem_deletedNodes hold, Graph.hasNode_eq old]
  cases hfound : old.node? id with
  | none => simp
  | some n => simp

end Delta

end ProgramGraph
