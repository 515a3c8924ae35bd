import Mathlib.Data.List.Basic
import ProgramGraph.Proofs.Property.Reread
import ProgramGraph.Proofs.Store.Rows
import ProgramGraph.Store.Action

set_option autoImplicit false

/-! # What a store holds

The content of a store is what can be read from it: a node for each identifier and an edge for
each key, or nothing. How it is written down does not show in it. The two kinds of store differ
in what becomes of a second edge with one key, in what becomes of the edges that reach a deleted
node and in what a transaction sees of its own changes, which is their `Policy`; apart from that,
`Content.step` says what an operation does to either.

`Store.Shows` says that a store answers every question by its content. A list of answers is given
by an enumeration: each item once, and no other.
-/

namespace ProgramGraph

/-! ## Enumerations -/

/-- The list has each item with a property once, and no other. -/
structure Enumerates {α : Type} (p : α → Prop) (items : List α) : Prop where
  nodup : items.Nodup
  mem_iff : ∀ a, a ∈ items ↔ p a

namespace Enumerates

variable {α : Type} {p q : α → Prop} {xs ys : List α}

/-- Two enumerations differ in their order only. -/
theorem perm (hx : Enumerates p xs) (hy : Enumerates q ys) (h : ∀ a, p a ↔ q a) : xs.Perm ys :=
  (List.perm_ext_iff_of_nodup hx.nodup hy.nodup).mpr fun a => by rw [hx.mem_iff, hy.mem_iff, h]

theorem length_eq (hx : Enumerates p xs) (hy : Enumerates q ys) (h : ∀ a, p a ↔ q a) :
    xs.length = ys.length := (hx.perm hy h).length_eq

/-- Two enumerations of texts in ascending order are one. -/
theorem eq_of_ascending {p q : String → Prop} {xs ys : List String} (hx : Enumerates p xs)
    (hy : Enumerates q ys) (h : ∀ a, p a ↔ q a) (hxs : xs.Pairwise (· < ·))
    (hys : ys.Pairwise (· < ·)) : xs = ys :=
  (hx.perm hy h).eq_of_pairwise
    (fun _ _ _ _ hab hba => absurd (String.lt_trans hab hba) (String.lt_irrefl _)) hxs hys

theorem congr (hx : Enumerates p xs) (h : ∀ a, p a ↔ q a) : Enumerates q xs :=
  ⟨hx.nodup, fun a => (hx.mem_iff a).trans (h a)⟩

end Enumerates

/-! ## Contents -/

/-- What can be read from a store. -/
@[ext]
structure Content where
  node? : String → Option Node
  edge? : EdgeKey → Option Edge
  id_eq : ∀ {id n}, node? id = some n → n.id = id
  key_eq : ∀ {key e}, edge? key = some e → e.key = key

namespace Content

/-- Nothing. -/
def empty : Content := ⟨fun _ => none, fun _ => none, by simp, by simp⟩

instance : EmptyCollection Content := ⟨empty⟩

variable (c : Content)

/-- There is a node with the identifier. -/
def hasNode (id : String) : Bool := (c.node? id).isSome

/-- There is an edge with the key. -/
def hasEdge (key : EdgeKey) : Bool := (c.edge? key).isSome

/-- Puts a node in, in place of one with the same identifier. -/
def putNode (n : Node) : Content where
  node? id := if id = n.id then some n else c.node? id
  edge? := c.edge?
  id_eq := by
    intro id m h
    split at h
    · rename_i hid
      rw [← Option.some.inj h, hid]
    · exact c.id_eq h
  key_eq := c.key_eq

/-- Puts an edge in. One with the same key is replaced, or stays. -/
def putEdge (replaces : Bool) (e : Edge) : Content where
  node? := c.node?
  edge? key :=
    if key = e.key then (if replaces then some e else (c.edge? key).or (some e)) else c.edge? key
  id_eq := c.id_eq
  key_eq := by
    intro key d h
    split at h
    · rename_i hkey
      cases hold : c.edge? key with
      | none =>
          obtain rfl : e = d := by cases replaces <;> simpa [hold] using h
          exact hkey.symm
      | some old =>
          cases replaces with
          | true =>
              obtain rfl : e = d := by simpa using h
              exact hkey.symm
          | false =>
              obtain rfl : old = d := by simpa [hold] using h
              exact c.key_eq hold
    · exact c.key_eq h

/-- Takes some nodes and some edges out. -/
def drop (nodes : String → Bool) (edges : EdgeKey → Bool) : Content where
  node? id := if nodes id then none else c.node? id
  edge? key := if edges key then none else c.edge? key
  id_eq := by
    intro id n h
    split at h
    · cases h
    · exact c.id_eq h
  key_eq := by
    intro key e h
    split at h
    · cases h
    · exact c.key_eq h

theorem hasEdge_putEdge (c : Content) (replaces : Bool) (e : Edge) (key : EdgeKey) :
    (c.putEdge replaces e).hasEdge key = (decide (key = e.key) || c.hasEdge key) := by
  by_cases hkey : key = e.key
  · cases replaces <;> simp [hasEdge, putEdge, hkey]
  · simp [hasEdge, putEdge, hkey]

/-- Without an edge with its key, an edge is put in either way. -/
theorem putEdge_of_not_hasEdge {c : Content} {e : Edge} (h : c.hasEdge e.key = false) :
    c.putEdge false e = c.putEdge true e := by
  refine Content.ext rfl (funext fun key => ?_)
  by_cases hkey : key = e.key
  · have hnone : c.edge? e.key = none := Option.isNone_iff_eq_none.mp (Option.isSome_eq_false_iff.mp h)
    simp [putEdge, hkey, hnone]
  · simp [putEdge, hkey]

theorem hasEdge_drop (c : Content) (nodes : String → Bool) (edges : EdgeKey → Bool) (key : EdgeKey) :
    (c.drop nodes edges).hasEdge key = (!edges key && c.hasEdge key) := by
  by_cases hkey : edges key = true <;> simp [hasEdge, drop, hkey]

/-- There is a node with the identifier, of a kind if one is given. -/
def HasNodeOf (kind : Option NodeKind) (id : String) : Prop :=
  ∃ n, c.node? id = some n ∧ kind.all (fun k => n.kind = k) = true

/-- There is an edge with the key, which is selected. -/
def HasEdgeIn (selected : EdgeKey → Bool) (key : EdgeKey) : Prop :=
  c.hasEdge key = true ∧ selected key = true

/-- The keys of found edges. -/
theorem map_key_filterMap {c : Content} {selected : EdgeKey → Bool} {keys : List EdgeKey}
    (h : Enumerates (c.HasEdgeIn selected) keys) : (keys.filterMap c.edge?).map Edge.key = keys := by
  rw [List.map_filterMap]
  refine (List.filterMap_congr fun key hkey => ?_).trans List.filterMap_some
  obtain ⟨e, he⟩ := Option.isSome_iff_exists.mp ((h.mem_iff key).mp hkey).1
  rw [he, Option.map_some, c.key_eq he]

/-- The kinds of the nodes follow from their identifiers. -/
def HasKinds (kindOf : String → NodeKind) : Prop := ∀ id n, c.node? id = some n → n.kind = kindOf id

end Content

/-! ## Operations -/

/-- Where the two kinds of store differ. -/
structure Policy where
  /-- A second edge with one key replaces the first. -/
  replaces : Bool
  /-- The edges that reach a deleted node go with it. -/
  cascades : Bool
  /-- What a transaction deletes is looked up in the content at its beginning. -/
  looksBack : Bool
  deriving DecidableEq

namespace Content

/-- The content with a graph put in. -/
def putGraph (policy : Policy) (c : Content) (g : Graph) : Content :=
  g.edgeList.foldl (fun acc e => acc.putEdge policy.replaces e.reread)
    (g.nodeList.foldl (fun acc n => acc.putNode n.reread) c)

/-- The content after an operation. What there is to delete is looked up in `base`. -/
def step (policy : Policy) (c base : Content) : Store.Operation → Content
  | .saveNode n => c.putNode n.reread
  | .saveEdge e => c.putEdge policy.replaces e.reread
  | .saveGraph g _ => c.putGraph policy g
  | .deleteNode id =>
      c.drop (fun i => i = id) fun key =>
        base.hasEdge key && (key.source = id || (policy.cascades && key.target = id))
  | .deleteEdge source target (some kind) =>
      c.drop (fun _ => false) fun key => key = ⟨source, target, kind⟩
  | .deleteEdge source target none =>
      c.drop (fun _ => false) fun key =>
        base.hasEdge key && (key.source = source && key.target = target)
  | .clear => c.drop base.hasNode base.hasEdge

/-- The content after the operations of a transaction. -/
def after (policy : Policy) (c : Content) (ops : List Store.Operation) : Content :=
  ops.foldl (fun acc op => acc.step policy (if policy.looksBack then c else acc) op) c

/-- The content after operations that are not in one transaction. -/
def afterEach (policy : Policy) (c : Content) (ops : List Store.Operation) : Content :=
  ops.foldl (fun acc op => acc.step policy acc op) c

theorem afterEach_append (policy : Policy) (c : Content) (ops more : List Store.Operation) :
    c.afterEach policy (ops ++ more) = (c.afterEach policy ops).afterEach policy more :=
  List.foldl_append

/-- Outside a transaction, whatever there is to delete is looked up at once. -/
theorem afterEach_eq_after (policy : Policy) (c : Content) (ops : List Store.Operation) :
    c.afterEach policy ops = c.after { policy with looksBack := false } ops := by
  have hstep : ∀ (acc : Content) (op : Store.Operation),
      acc.step { policy with looksBack := false } acc op = acc.step policy acc op := fun acc op => by
    cases op <;> rfl
  exact List.foldl_ext _ _ c fun acc op _ => (hstep acc op).symm

end Content

namespace Store.Operation

/-- The nodes that an operation saves. -/
def savedNodes : Operation → List Node
  | .saveNode n => [n]
  | .saveGraph g _ => g.nodeList
  | _ => []

/-- The edges that an operation saves. -/
def savedEdges : Operation → List Edge
  | .saveEdge e => [e]
  | .saveGraph g _ => g.edgeList
  | _ => []

end Store.Operation

/-! ## Answers -/

/-- The page of the nodes that a filter accepts. -/
def pageOf (filter : Filter) (limit : Option Nat) (offset : Nat) (nodes : List Node) : List Node :=
  let rest := (nodes.filter filter.accepts).drop offset
  limit.elim rest rest.take

namespace Store

/-- The database of a table store lets through what a filter accepts. -/
def Admits : Store → Filter → Prop
  | .table t, filter => t.rows.Admits filter
  | .keyed _, _ => True

/-- The store answers every question by the content. -/
structure Shows (s : Store) (c : Content) : Prop where
  node? : ∀ id, s.node? id = .ok (c.node? id)
  node : ∀ id, s.node id = (c.node? id).elim (.error (.nodeMissing id)) .ok
  hasNode : ∀ id, s.hasNode id = .ok (c.hasNode id)
  findNodes : ∀ kind filter limit offset, s.Admits filter →
    ∃ ids, Enumerates (c.HasNodeOf kind) ids ∧ ids.Pairwise (· < ·) ∧
      s.findNodes kind filter limit offset = .ok (pageOf filter limit offset (ids.filterMap c.node?))
  nodeCount : ∀ kind, ∃ ids, Enumerates (c.HasNodeOf kind) ids ∧ s.nodeCount kind = .ok ids.length
  edgesFrom : ∀ source target kind, ∃ keys,
    Enumerates (c.HasEdgeIn fun key => key.source = source &&
      (target.all fun t => key.target = t) && kind.all fun k => key.kind = k) keys ∧
      s.edgesFrom source target kind = .ok (keys.filterMap c.edge?)
  edgesTo : ∀ target kind, ∃ keys,
    Enumerates (c.HasEdgeIn fun key => key.target = target && kind.all fun k => key.kind = k) keys ∧
      s.edgesTo target kind = .ok (keys.filterMap c.edge?)
  edgeCount : ∀ kind, ∃ keys,
    Enumerates (c.HasEdgeIn fun key => kind.all fun k => key.kind = k) keys ∧
      s.edgeCount kind = .ok keys.length
  edgeBound : ∀ {keys}, Enumerates (c.HasEdgeIn fun _ => true) keys → keys.length ≤ s.edgeBound
  statistics : ∃ (stats : Statistics) (nodes : NodeKind → Nat) (edges : EdgeKind → Nat),
    s.statistics = .ok stats ∧ s.nodeCount none = .ok stats.nodeCount ∧
      s.edgeCount none = .ok stats.edgeCount ∧
      (∀ kind, s.nodeCount (some kind) = .ok (nodes kind)) ∧
      (∀ kind, s.edgeCount (some kind) = .ok (edges kind)) ∧
      stats.nodesByKind = Statistics.occurring nodes NodeKind.all ∧
      stats.edgesByKind = Statistics.occurring edges EdgeKind.all

end Store

end ProgramGraph
