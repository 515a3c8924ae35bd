import Mathlib.Data.List.Basic
import ProgramGraph.Proofs.Store.Carries

set_option autoImplicit false

/-! # The two kinds of store agree

The same calls, made on a fresh store of either kind, lead to stores that give the same answers.
Each store carries a content; the two contents have the same nodes, and edges under the same keys.
They may differ in the properties of an edge that was saved more than once. What is asked for is
that a kind follows from an identifier, that used identifiers joined by a colon can be taken
apart, that records can be read again from their own encodings, and that the keyed store deletes
edges that reach a deleted node and lets nothing expire.
-/

namespace ProgramGraph

/-! ## Alike contents -/

namespace Content

variable {c d base base' : Content}

/-- The same nodes, and edges under the same keys. -/
structure Alike (c d : Content) : Prop where
  node? : ∀ id, c.node? id = d.node? id
  hasEdge : ∀ key, c.hasEdge key = d.hasEdge key

namespace Alike

theorem refl (c : Content) : Alike c c := ⟨fun _ => rfl, fun _ => rfl⟩

theorem hasNode (h : Alike c d) (id : String) : c.hasNode id = d.hasNode id := by
  rw [Content.hasNode, Content.hasNode, h.node?]

theorem putNode (h : Alike c d) (n : Node) : Alike (c.putNode n) (d.putNode n) where
  node? id := by
    show (if id = n.id then some n else c.node? id) = if id = n.id then some n else d.node? id
    rw [h.node?]
  hasEdge := h.hasEdge

theorem putEdge (h : Alike c d) (replaces replaces' : Bool) (e : Edge) :
    Alike (c.putEdge replaces e) (d.putEdge replaces' e) where
  node? := h.node?
  hasEdge key := by rw [hasEdge_putEdge, hasEdge_putEdge, h.hasEdge]

theorem drop (h : Alike c d) {nodes nodes' : String → Bool} {edges edges' : EdgeKey → Bool}
    (hnodes : ∀ id, nodes id = nodes' id) (hedges : ∀ key, edges key = edges' key) :
    Alike (c.drop nodes edges) (d.drop nodes' edges') where
  node? id := by
    show (if nodes id then none else c.node? id) = if nodes' id then none else d.node? id
    rw [hnodes, h.node?]
  hasEdge key := by rw [hasEdge_drop, hasEdge_drop, hedges, h.hasEdge]

theorem putGraph (h : Alike c d) (p q : Policy) (g : Graph) :
    Alike (c.putGraph p g) (d.putGraph q g) := by
  have hnodes : ∀ {nodes : List Node} {c d : Content}, Alike c d →
      Alike (nodes.foldl (fun acc n => acc.putNode n.reread) c)
        (nodes.foldl (fun acc n => acc.putNode n.reread) d) := by
    intro nodes
    induction nodes with
    | nil => exact fun h => h
    | cons n rest ih => exact fun h => ih (h.putNode n.reread)
  -- The policies only differ in which of two edges with one key stays, so both have an edge or none has.
  have hedges : ∀ {edges : List Edge} {c d : Content}, Alike c d →
      Alike (edges.foldl (fun acc e => acc.putEdge p.replaces e.reread) c)
        (edges.foldl (fun acc e => acc.putEdge q.replaces e.reread) d) := by
    intro edges
    induction edges with
    | nil => exact fun h => h
    | cons e rest ih => exact fun h => ih (h.putEdge p.replaces q.replaces e.reread)
  exact hedges (hnodes h)

/-- **An operation** on alike contents leads to alike contents, whatever becomes of a second edge
with one key. -/
theorem step (h : Alike c d) (hbase : Alike base base') {p q : Policy} (hcascades : p.cascades = q.cascades)
    (op : Store.Operation) : Alike (c.step p base op) (d.step q base' op) := by
  cases op with
  | saveNode n => exact h.putNode n.reread
  | saveEdge e => exact h.putEdge p.replaces q.replaces e.reread
  | saveGraph g options => exact h.putGraph p q g
  | deleteNode id => exact h.drop (fun _ => rfl) fun key => by rw [hbase.hasEdge, hcascades]
  | deleteEdge source target kind =>
      cases kind with
      | none => exact h.drop (fun _ => rfl) fun key => by rw [hbase.hasEdge]
      | some kind => exact h.drop (fun _ => rfl) fun _ => rfl
  | clear => exact h.drop hbase.hasNode hbase.hasEdge

end Alike

theorem Alike.afterEach (h : Alike c d) {p q : Policy} (hcascades : p.cascades = q.cascades)
    (ops : List Store.Operation) : Alike (c.afterEach p ops) (d.afterEach q ops) := by
  induction ops generalizing c d with
  | nil => exact h
  | cons op rest ih => exact ih (h.step h hcascades op)

end Content

/-! ## Calls -/

namespace Store

/-- The operation saves and looks nothing up. -/
def Operation.saves : Operation → Bool
  | .saveNode _ | .saveEdge _ | .saveGraph _ _ => true
  | _ => false

/-- A call on a store, made outside any transaction. -/
inductive Call where
  | one (op : Operation)
  | saveNodes (nodes : List Node) (batchSize : UInt64)
  | saveEdges (edges : List Edge) (batchSize : UInt64)
  /-- Nothing is called until a moment. -/
  | wait (now : UInt64)

namespace Call

/-- The operations that a call consists of. -/
def operations : Call → List Operation
  | .one op => [op]
  | .saveNodes nodes _ => nodes.map .saveNode
  | .saveEdges edges _ => edges.map .saveEdge
  | .wait _ => []

/-- Makes the call. -/
def work : Call → Action Unit
  | .one op => Action.perform op
  | .saveNodes nodes batchSize => do let _ ← Action.saveNodes nodes batchSize
  | .saveEdges edges batchSize => do let _ ← Action.saveEdges edges batchSize
  | .wait now => fun s => (.ok (), s.atMoment now)

end Call

end Store

namespace Content

theorem step_of_saves {op : Store.Operation} (h : op.saves = true) (policy : Policy)
    (c base base' : Content) : c.step policy base op = c.step policy base' op := by
  cases op with
  | saveNode | saveEdge | saveGraph => rfl
  | deleteNode | deleteEdge | clear => cases h

/-- For saving it makes no difference whether it is done in a transaction. -/
theorem after_of_saves {ops : List Store.Operation} (h : ∀ op ∈ ops, op.saves = true) (policy : Policy)
    (c : Content) : c.after policy ops = c.afterEach policy ops :=
  List.foldl_ext _ _ c fun acc _ hop => step_of_saves (h _ hop) policy acc _ acc

end Content

namespace Store.Carries

variable {conv : Convention} {b : Backend} {s : Store} {c : Content}

/-- **Saving in pieces** keeps step with the content. -/
theorem performInChunks (h : s.Carries conv b c) {ops : List Operation}
    (hops : ∀ op ∈ ops, b.Suits conv op) (hsaves : ∀ op ∈ ops, op.saves = true) (batchSize : UInt64) :
    ∃ s', Action.Ends (Action.performInChunks ops batchSize) s ops.length s' ∧
      s'.Carries conv b (c.afterEach b.policy ops) := by
  have hpieces : ∀ (pieces : List (List Operation)) {s : Store} {c : Content}, s.Carries conv b c →
      (∀ op ∈ pieces.flatten, b.Suits conv op ∧ op.saves = true) →
      ∃ s', Action.Ends (pieces.forM fun piece => Action.transaction (piece.forM Action.perform)) s () s' ∧
        s'.Carries conv b (c.afterEach b.policy pieces.flatten) := by
    intro pieces
    induction pieces with
    | nil => exact fun h _ => ⟨_, rfl, h⟩
    | cons piece rest ih =>
        intro s c h hall
        rw [List.flatten_cons] at hall
        obtain ⟨s₁, hfirst, h₁⟩ := h.transaction fun op hop =>
          (hall op (List.mem_append_left _ hop)).1
        -- Saving looks nothing up, so the pieces lead to what the operations lead to one after the other.
        rw [Content.after_of_saves fun op hop => (hall op (List.mem_append_left _ hop)).2] at h₁
        obtain ⟨s₂, hrest, h₂⟩ := ih h₁ fun op hop => hall op (List.mem_append_right _ hop)
        refine ⟨s₂, Action.ends_bind hfirst hrest, ?_⟩
        rw [List.flatten_cons, Content.afterEach_append]
        exact h₂
  obtain ⟨s', hrun, hs'⟩ := hpieces (chunks batchSize ops) h (by
    rw [flatten_chunks]
    exact fun op hop => ⟨hops op hop, hsaves op hop⟩)
  rw [flatten_chunks] at hs'
  rw [Action.performInChunks_eq]
  exact ⟨s', Action.ends_bind hrun rfl, hs'⟩

/-- **A call** keeps step with the content. -/
theorem call (h : s.Carries conv b c) {call : Call} (hops : ∀ op ∈ call.operations, b.Suits conv op) :
    ∃ s', Action.Ends call.work s () s' ∧ s'.Carries conv b (c.afterEach b.policy call.operations) := by
  cases call with
  | one op =>
      obtain ⟨s', hrun, hs'⟩ := h.perform (hops op (List.mem_singleton_self op))
      exact ⟨s', Action.ends_perform hrun, hs'⟩
  | saveNodes nodes batchSize =>
      obtain ⟨s', hrun, hs'⟩ := h.performInChunks hops (by simp [Call.operations, Operation.saves]) batchSize
      exact ⟨s', Action.ends_bind hrun rfl, hs'⟩
  | saveEdges edges batchSize =>
      obtain ⟨s', hrun, hs'⟩ := h.performInChunks hops (by simp [Call.operations, Operation.saves]) batchSize
      exact ⟨s', Action.ends_bind hrun rfl, hs'⟩
  | wait now => exact ⟨_, rfl, h.atMoment now⟩

/-- **Calls** keep step with the content. -/
theorem calls (h : s.Carries conv b c) {calls : List Call}
    (hops : ∀ call ∈ calls, ∀ op ∈ call.operations, b.Suits conv op) :
    ∃ s', Action.Ends (calls.forM Call.work) s () s' ∧
      s'.Carries conv b (c.afterEach b.policy (calls.flatMap Call.operations)) := by
  induction calls generalizing s c with
  | nil => exact ⟨s, rfl, h⟩
  | cons call rest ih =>
      obtain ⟨s₁, hfirst, h₁⟩ := h.call (hops call List.mem_cons_self)
      obtain ⟨s₂, hrest, h₂⟩ := ih h₁ fun r hr => hops r (List.mem_cons_of_mem _ hr)
      refine ⟨s₂, Action.ends_bind hfirst hrest, ?_⟩
      rw [List.flatMap_cons, Content.afterEach_append]
      exact h₂

end Store.Carries

/-! ## Answers -/

namespace Store

/-- Two questions have one answer. -/
def SameAnswer {α : Type} (x y : Outcome α) : Prop := ∃ answer, x = .ok answer ∧ y = .ok answer

/-- Two questions for edges have answers with the same ends and relations. -/
def SameEdges (x y : Outcome (List Edge)) : Prop :=
  ∃ xs ys, x = .ok xs ∧ y = .ok ys ∧ (xs.map Edge.key).Perm (ys.map Edge.key)

/-- The stores give the same answers. -/
structure Agree (a b : Store) : Prop where
  node? : ∀ id, SameAnswer (a.node? id) (b.node? id)
  node : ∀ id, a.node id = b.node id
  hasNode : ∀ id, SameAnswer (a.hasNode id) (b.hasNode id)
  findNodes : ∀ kind filter limit offset, a.Admits filter → b.Admits filter →
    SameAnswer (a.findNodes kind filter limit offset) (b.findNodes kind filter limit offset)
  nodeCount : ∀ kind, SameAnswer (a.nodeCount kind) (b.nodeCount kind)
  edgeCount : ∀ kind, SameAnswer (a.edgeCount kind) (b.edgeCount kind)
  statistics : ∃ x y, a.statistics = .ok x ∧ b.statistics = .ok y ∧ x.nodeCount = y.nodeCount ∧
    x.edgeCount = y.edgeCount ∧ x.nodesByKind = y.nodesByKind ∧ x.edgesByKind = y.edgesByKind
  edgesFrom : ∀ source target kind, SameEdges (a.edgesFrom source target kind) (b.edgesFrom source target kind)
  edgesTo : ∀ target kind, SameEdges (a.edgesTo target kind) (b.edgesTo target kind)

variable {a b : Store} {c d : Content}

theorem sameEdges_of_enumerates (h : c.Alike d) {x y : Outcome (List Edge)} {selected : EdgeKey → Bool}
    (hx : ∃ keys, Enumerates (c.HasEdgeIn selected) keys ∧ x = .ok (keys.filterMap c.edge?))
    (hy : ∃ keys, Enumerates (d.HasEdgeIn selected) keys ∧ y = .ok (keys.filterMap d.edge?)) :
    SameEdges x y := by
  obtain ⟨xs, hxs, rfl⟩ := hx
  obtain ⟨ys, hys, rfl⟩ := hy
  refine ⟨_, _, rfl, rfl, ?_⟩
  rw [Content.map_key_filterMap hxs, Content.map_key_filterMap hys]
  exact hxs.perm hys fun key => by rw [Content.HasEdgeIn, Content.HasEdgeIn, h.hasEdge]

/-- **Stores with alike contents give the same answers.** -/
theorem agree_of_shows (ha : a.Shows c) (hb : b.Shows d) (h : c.Alike d) : Agree a b := by
  have hof : ∀ kind id, c.HasNodeOf kind id ↔ d.HasNodeOf kind id := fun kind id => by
    rw [Content.HasNodeOf, Content.HasNodeOf, h.node?]
  have hnodeCount : ∀ kind, SameAnswer (a.nodeCount kind) (b.nodeCount kind) := fun kind => by
    obtain ⟨xs, hxs, hx⟩ := ha.nodeCount kind
    obtain ⟨ys, hys, hy⟩ := hb.nodeCount kind
    exact ⟨xs.length, hx, hxs.length_eq hys (hof kind) ▸ hy⟩
  have hedgeCount : ∀ kind, SameAnswer (a.edgeCount kind) (b.edgeCount kind) := fun kind => by
    obtain ⟨xs, hxs, hx⟩ := ha.edgeCount kind
    obtain ⟨ys, hys, hy⟩ := hb.edgeCount kind
    have hlength : xs.length = ys.length := hxs.length_eq hys fun key => by
      rw [Content.HasEdgeIn, Content.HasEdgeIn, h.hasEdge]
    exact ⟨xs.length, hx, hlength ▸ hy⟩
  have hone : ∀ {α : Type} {x y : Outcome α} {p q : α}, SameAnswer x y → x = .ok p → y = .ok q → p = q := by
    rintro α x y p q ⟨answer, rfl, rfl⟩ hp hq
    exact (Except.ok.inj hp).symm.trans (Except.ok.inj hq)
  constructor
  case node? => exact fun id => ⟨c.node? id, ha.node? id, h.node? id ▸ hb.node? id⟩
  case node => exact fun id => by rw [ha.node, hb.node, h.node?]
  case hasNode => exact fun id => ⟨c.hasNode id, ha.hasNode id, h.hasNode id ▸ hb.hasNode id⟩
  case findNodes =>
    intro kind filter limit offset hadmits hadmits'
    obtain ⟨xs, hxs, hxsort, hx⟩ := ha.findNodes kind filter limit offset hadmits
    obtain ⟨ys, hys, hysort, hy⟩ := hb.findNodes kind filter limit offset hadmits'
    -- Both list the same identifiers, and both in ascending order.
    obtain rfl := hxs.eq_of_ascending hys (hof kind) hxsort hysort
    have hnodes : c.node? = d.node? := funext h.node?
    exact ⟨_, hx, hnodes ▸ hy⟩
  case nodeCount => exact hnodeCount
  case edgeCount => exact hedgeCount
  case statistics =>
    obtain ⟨x, xnodes, xedges, hx, hxn, hxe, hxnodes, hxedges, hxkinds, hxrelations⟩ := ha.statistics
    obtain ⟨y, ynodes, yedges, hy, hyn, hye, hynodes, hyedges, hykinds, hyrelations⟩ := hb.statistics
    refine ⟨x, y, hx, hy, hone (hnodeCount none) hxn hyn, hone (hedgeCount none) hxe hye, ?_, ?_⟩
    · have hnodes : xnodes = ynodes := funext fun kind =>
        hone (hnodeCount (some kind)) (hxnodes kind) (hynodes kind)
      rw [hxkinds, hykinds, hnodes]
    · have hedges : xedges = yedges := funext fun kind =>
        hone (hedgeCount (some kind)) (hxedges kind) (hyedges kind)
      rw [hxrelations, hyrelations, hedges]
  case edgesFrom =>
    exact fun source target kind =>
      sameEdges_of_enumerates h (ha.edgesFrom source target kind) (hb.edgesFrom source target kind)
  case edgesTo =>
    exact fun target kind => sameEdges_of_enumerates h (ha.edgesTo target kind) (hb.edgesTo target kind)

/-- **The same calls on a fresh store of either kind** succeed and lead to stores that agree. A
part of the calls is a sequence of calls too, so the stores agree after every one. -/
theorem agree_of_calls (conv : Convention) (table : TableSettings) {keyed : KeyedSettings}
    (cascades : keyed.cascadeIncoming = true) (stays : keyed.defaultLife = none) (now : UInt64)
    {calls : List Call}
    (suits : ∀ call ∈ calls, ∀ op ∈ call.operations, op.SuitsRows ∧ op.SuitsEntries conv) :
    ∃ a b, Action.Ends (calls.forM Call.work) (.table (.ofRows table .empty)) () a ∧
      Action.Ends (calls.forM Call.work) (.keyed (.ofEntries keyed ∅ now)) () b ∧ Agree a b := by
  obtain ⟨a, ha, hacarries⟩ := (Carries.of_noRows conv table).calls fun call hcall op hop =>
    (suits call hcall op hop).1
  obtain ⟨b, hb, hbcarries⟩ := (Carries.of_noEntries conv stays now).calls fun call hcall op hop =>
    (suits call hcall op hop).2
  have hcascades : Backend.rows.policy.cascades = (Backend.entries keyed.cascadeIncoming).policy.cascades :=
    cascades.symm
  exact ⟨a, b, ha, hb, agree_of_shows hacarries.shows hbcarries.shows
    ((Content.Alike.refl ∅).afterEach hcascades _)⟩

/-- Two modules and an edge between them, which is deleted, and one of the modules after it. -/
theorem agree_of_calls_twoModules :
    let a := Node.ofCore "module:a" (.module "a" "a")
    let b := Node.ofCore "module:b" (.module "b" "b")
    let e := Edge.ofCore "module:a" "module:b" (.contains none)
    let keyed := { KeyedSettings.standard with defaultLife := none, cascadeIncoming := true }
    let calls := [Call.saveNodes [a, b] 1, .one (.saveEdge e), .wait 7,
      .one (.deleteEdge "module:a" "module:b" (some .contains)), .one (.deleteNode "module:b")]
    ∃ x y, Action.Ends (calls.forM Call.work) (.table (.ofRows .inMemory .empty)) () x ∧
      Action.Ends (calls.forM Call.work) (.keyed (.ofEntries keyed ∅ 0)) () y ∧ Agree x y := by
  intro a b e keyed calls
  have hused : Unambiguous fun id => id = "module:a" ∨ id = "module:b" := by
    rintro _ _ _ _ (rfl | rfl) (rfl | rfl) (rfl | rfl) (rfl | rfl) h <;> revert h <;> decide +kernel
  let conv : Convention := ⟨fun _ => .module, _, hused⟩
  have hnone : Properties.KeepsFloats ∅ := fun key x h => by simp at h
  have ha : a.IsApart ∧ a.extra.KeepsFloats ∧ a.Fits ∧ a.kind = .module :=
    ⟨fun _ _ => rfl, hnone, by decide +kernel, rfl⟩
  have hb : b.IsApart ∧ b.extra.KeepsFloats ∧ b.Fits ∧ b.kind = .module :=
    ⟨fun _ _ => rfl, hnone, by decide +kernel, rfl⟩
  have he : e.IsApart ∧ e.extra.KeepsFloats ∧ e.Fits ∧ e.source = "module:a" ∧ e.target = "module:b" :=
    ⟨fun _ _ => rfl, hnone, by decide +kernel, rfl, rfl⟩
  refine agree_of_calls conv .inMemory rfl rfl 0 fun call hcall op hop => ?_
  have hop : op ∈ calls.flatMap Call.operations := List.mem_flatMap.mpr ⟨call, hcall, hop⟩
  simp only [calls, List.flatMap_cons, List.flatMap_nil, Call.operations, List.map_cons, List.map_nil,
    List.cons_append, List.nil_append, List.mem_cons, List.not_mem_nil, or_false] at hop
  rcases hop with rfl | rfl | rfl | rfl | rfl
  all_goals
    constructor <;> constructor <;>
      simp [Operation.savedNodes, Operation.savedEdges, ha, hb, he, conv]

end Store

end ProgramGraph
