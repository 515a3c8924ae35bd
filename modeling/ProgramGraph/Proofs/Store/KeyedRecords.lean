import ProgramGraph.Proofs.Store.Atomicity
import ProgramGraph.Proofs.Store.KeyedReading

set_option autoImplicit false

/-! # The records of a keyed store

A node that is saved again under another kind leaves the mark under its old kind behind. Nothing
that reads nodes by identifier, or edges, looks at these marks. So the records of a store are those
of a content if its slots are filled as the content says, whatever stands under the kinds
(`Keyed.HoldsRecords`). Saving and deleting keep this up, also if what is deleted was worked out on
an earlier content.

What holds of the entries through a whole life of a store is another matter, since transactions collect
changes on one map and make them on another. It lasts if the changes that are submitted keep it on any map
(`Keyed.Sustains`), with one lemma for each thing that happens to a store (`Keyed.Upholds`).
-/

namespace ProgramGraph

open ProgramGraph.Text

/-- The slot is not one for a mark under the kind of a node. -/
def Slot.IsOffKind : Slot → Prop
  | .nodeOfKind .. => False
  | _ => True

/-! ## Slots that are filled and emptied together -/

namespace ByteMap

variable {m : ByteMap} {layout : KeyLayout} {used : String → Prop} {filled : Slot → Option Stored}

/-- A node is put in. -/
theorem Holds.putNode (h : m.Holds layout used filled) (hused : Unambiguous used) {n : Node}
    (hapart : n.IsApart) (hfits : n.Fits) :
    (m.writeAll (Keyed.nodeWrites layout 0 n)).Holds layout used fun slot =>
      if slot = .nodeOfKind n.kind n.id then some .mark
      else if slot = .node n.id then some (.node n.reread) else filled slot := by
  have hnode : (Stored.node n.reread).IsIn (Envelope.pack 0 (MsgPack.encode n.toWire)) :=
    ⟨_, rfl, hapart.decodeNode_encode hfits⟩
  have hmark : Stored.mark.IsIn (Envelope.pack 0 []) := ⟨[], rfl, trivial⟩
  exact (h.put hused (.node n.id) trivial hnode).put hused (.nodeOfKind n.kind n.id) trivial hmark

/-- An edge is put in. -/
theorem Holds.putEdge (h : m.Holds layout used filled) (hused : Unambiguous used) {e : Edge}
    (hapart : e.IsApart) (hfits : e.Fits) (hends : used e.source ∧ used e.target) :
    (m.writeAll (Keyed.edgeWrites layout 0 e)).Holds layout used fun slot =>
      if slot = .edgeOfKind e.key then some .mark
      else if slot = .incoming e.key then some (.edge e.reread)
      else if slot = .edge e.key then some (.edge e.reread) else filled slot := by
  have hedge : (Stored.edge e.reread).IsIn (Envelope.pack 0 (MsgPack.encode e.toWire)) :=
    ⟨_, rfl, hapart.decodeEdge_encode hfits⟩
  have hmark : Stored.mark.IsIn (Envelope.pack 0 []) := ⟨[], rfl, trivial⟩
  have hfirst := h.put hused (.edge e.key) hends hedge
  have hnext := hfirst.put hused (.incoming e.key) hends hedge
  exact hnext.put hused (.edgeOfKind e.key) hends hmark

end ByteMap

namespace Keyed

/-- The slots of a node, under every kind. -/
def nodeSlots (id : String) : List Slot := .node id :: NodeKind.all.map fun kind => .nodeOfKind kind id

/-- The slots of an edge. -/
def edgeSlots (key : EdgeKey) : List Slot := [.edge key, .incoming key, .edgeOfKind key]

/-- The slots of some nodes and edges. -/
def slotsOf (ids : List String) (keys : List EdgeKey) : List Slot :=
  ids.flatMap nodeSlots ++ keys.flatMap edgeSlots

/-- The deletes of slots. -/
def slotDeletes (layout : KeyLayout) (slots : List Slot) : List ByteWrite :=
  slots.map fun slot => .delete (slot.bytes layout)

/-- The deletes are those of keys. -/
theorem slotDeletes_eq (layout : KeyLayout) (slots : List Slot) :
    slotDeletes layout slots = (slots.map (·.bytes layout)).map .delete := by
  rw [slotDeletes, List.map_map]
  rfl

theorem allDeletes_eq_keysUnder (k : Keyed) :
    k.allDeletes = (k.entries.keysUnder (k.layout.start [])).map .delete := by
  rw [allDeletes, ByteMap.keysUnder, List.map_map]
  rfl

theorem slotDeletes_slotsOf (layout : KeyLayout) (ids : List String) (keys : List EdgeKey) :
    slotDeletes layout (slotsOf ids keys) =
      ids.flatMap (fun id => (layout.nodeKeys id).map .delete) ++ keys.flatMap (edgeDeletes layout) := by
  rw [slotDeletes, slotsOf, List.map_append, List.map_flatMap, List.map_flatMap]
  rfl

/-- Deleting a node takes out the node and some edges. -/
theorem nodeDeletes_cases {k : Keyed} {id : String} {writes : List ByteWrite}
    (h : k.nodeDeletes id = .ok writes) : ∃ keys, writes = slotDeletes k.layout (slotsOf [id] keys) := by
  have hedges : ∀ edges : List Edge, (k.layout.nodeKeys id).map .delete ++
      (edges.flatMap fun e => edgeDeletes k.layout e.key) =
        slotDeletes k.layout (slotsOf [id] (edges.map Edge.key)) := fun edges => by
    rw [slotDeletes_slotsOf, List.flatMap_singleton, List.flatMap_map]
  obtain ⟨leaving, -, h⟩ := bind_eq_ok.mp h
  cases hcascade : k.settings.cascadeIncoming with
  | false =>
      rw [hcascade] at h
      obtain rfl := Except.ok.inj h
      exact ⟨_, hedges _⟩
  | true =>
      rw [hcascade] at h
      obtain ⟨reaching, -, h⟩ := bind_eq_ok.mp h
      obtain rfl := Except.ok.inj h
      exact ⟨_, hedges _⟩

/-- Deleting edges between two nodes takes out some edges. -/
theorem betweenDeletes_cases {k : Keyed} {source target : String} {kind : Option EdgeKind}
    {writes : List ByteWrite} (h : k.betweenDeletes source target kind = .ok writes) :
    ∃ keys, writes = slotDeletes k.layout (slotsOf [] keys) := by
  cases kind with
  | some kind =>
      obtain rfl := Except.ok.inj h
      refine ⟨[⟨source, target, kind⟩], ?_⟩
      rw [slotDeletes_slotsOf, List.flatMap_singleton]
      rfl
  | none =>
      obtain ⟨found, -, h⟩ := bind_eq_ok.mp h
      obtain rfl := Except.ok.inj h
      refine ⟨found.map fun e => ⟨source, target, e.kind⟩, ?_⟩
      rw [slotDeletes_slotsOf, List.flatMap_map]
      rfl

theorem isUsed_of_mem_slotsOf {used : String → Prop} {ids : List String} {keys : List EdgeKey}
    (hused : ∀ key ∈ keys, used key.source ∧ used key.target) :
    ∀ slot ∈ slotsOf ids keys, slot.IsUsed used := by
  intro slot hslot
  rcases List.mem_append.mp hslot with hslot | hslot
  · obtain ⟨id, -, hid⟩ := List.mem_flatMap.mp hslot
    simp only [nodeSlots, NodeKind.all, List.map_cons, List.map_nil, List.mem_cons,
      List.not_mem_nil, or_false] at hid
    rcases hid with rfl | rfl | rfl | rfl | rfl | rfl <;> trivial
  · obtain ⟨key, hkey, hin⟩ := List.mem_flatMap.mp hslot
    simp only [edgeSlots, List.mem_cons, List.not_mem_nil, or_false] at hin
    rcases hin with rfl | rfl | rfl <;> exact hused key hkey

/-- Taking some nodes and edges out of a content empties their slots. -/
theorem at?_drop_slotsOf (c : Content) (nodes : String → Bool) (edges : EdgeKey → Bool)
    (ids : List String) (keys : List EdgeKey) (hids : ∀ id, id ∈ ids ↔ nodes id = true)
    (hkeys : ∀ key, c.hasEdge key = true → (key ∈ keys ↔ edges key = true)) :
    (c.drop nodes edges).at? = fun slot => if slot ∈ slotsOf ids keys then none else c.at? slot := by
  have hkind : ∀ kind : NodeKind, kind ∈ NodeKind.all := fun kind => by cases kind <;> decide
  apply Content.at?_drop
  · intro id n _
    simp [slotsOf, nodeSlots, edgeSlots, hids]
  · intro id n _
    simp [slotsOf, nodeSlots, edgeSlots, hids, hkind]
  all_goals
    intro key hkey
    simp [slotsOf, nodeSlots, edgeSlots, hkeys key hkey]

/-! ## What a store holds of a content -/

/-- The slots are filled as the content says, but for those under the kinds of nodes. -/
def HoldsRecords (layout : KeyLayout) (used : String → Prop) (entries : ByteMap) (c : Content) : Prop :=
  ∃ filled, entries.Holds layout used filled ∧
    ∀ slot : Slot, slot.IsOffKind → filled slot = c.at? slot

variable {layout : KeyLayout} {used : String → Prop} {m : ByteMap} {c : Content}

theorem holdsRecords_empty (layout : KeyLayout) (used : String → Prop) : HoldsRecords layout used ∅ ∅ :=
  ⟨_, ByteMap.holds_empty layout used, fun _ _ => rfl⟩

namespace HoldsRecords

theorem putNode (h : HoldsRecords layout used m c) (hused : Unambiguous used) {n : Node}
    (hapart : n.IsApart) (hfits : n.Fits) :
    HoldsRecords layout used (m.writeAll (nodeWrites layout 0 n)) (c.putNode n.reread) := by
  obtain ⟨filled, hfilled, hat⟩ := h
  refine ⟨_, hfilled.putNode hused hapart hfits, fun slot hslot => ?_⟩
  cases slot with
  | nodeOfKind kind id => exact hslot.elim
  | node id => by_cases hid : id = n.id <;> simp [Content.at?, Content.putNode, hid, hat _ hslot]
  | _ => simp [Content.at?, Content.putNode, hat _ hslot]

theorem putEdge (h : HoldsRecords layout used m c) (hused : Unambiguous used) {e : Edge}
    (hapart : e.IsApart) (hfits : e.Fits) (hends : used e.source ∧ used e.target) :
    HoldsRecords layout used (m.writeAll (edgeWrites layout 0 e)) (c.putEdge true e.reread) := by
  obtain ⟨filled, hfilled, hat⟩ := h
  refine ⟨_, hfilled.putEdge hused hapart hfits hends, fun slot hslot => ?_⟩
  rw [Content.at?_putEdge, hat slot hslot]
  rfl

theorem putNodes (h : HoldsRecords layout used m c) (hused : Unambiguous used) {nodes : List Node}
    (hnodes : ∀ n ∈ nodes, n.IsApart ∧ n.Fits) :
    HoldsRecords layout used (m.writeAll (nodes.flatMap (nodeWrites layout 0)))
      (nodes.foldl (fun acc n => acc.putNode n.reread) c) := by
  induction nodes generalizing m c with
  | nil => exact h
  | cons n rest ih =>
      obtain ⟨hapart, hfits⟩ := hnodes n List.mem_cons_self
      rw [List.flatMap_cons, ByteMap.writeAll_append]
      exact ih (h.putNode hused hapart hfits) fun m hm => hnodes m (List.mem_cons_of_mem _ hm)

theorem putEdges (h : HoldsRecords layout used m c) (hused : Unambiguous used) {edges : List Edge}
    (hedges : ∀ e ∈ edges, e.IsApart ∧ e.Fits ∧ used e.source ∧ used e.target) :
    HoldsRecords layout used (m.writeAll (edges.flatMap (edgeWrites layout 0)))
      (edges.foldl (fun acc e => acc.putEdge true e.reread) c) := by
  induction edges generalizing m c with
  | nil => exact h
  | cons e rest ih =>
      obtain ⟨hapart, hfits, hends⟩ := hedges e List.mem_cons_self
      rw [List.flatMap_cons, ByteMap.writeAll_append]
      exact ih (h.putEdge hused hapart hfits hends) fun d hd => hedges d (List.mem_cons_of_mem _ hd)

theorem drop (h : HoldsRecords layout used m c) (hused : Unambiguous used) (nodes : String → Bool)
    (edges : EdgeKey → Bool) (ids : List String) (keys : List EdgeKey)
    (hids : ∀ id, id ∈ ids ↔ nodes id = true)
    (hkeys : ∀ key, c.hasEdge key = true → (key ∈ keys ↔ edges key = true))
    (hends : ∀ key ∈ keys, used key.source ∧ used key.target) :
    HoldsRecords layout used (m.writeAll (slotDeletes layout (slotsOf ids keys))) (c.drop nodes edges) := by
  obtain ⟨filled, hfilled, hat⟩ := h
  refine ⟨_, hfilled.deleteAll hused (isUsed_of_mem_slotsOf hends), fun slot hslot => ?_⟩
  rw [at?_drop_slotsOf c nodes edges ids keys hids hkeys, hat slot hslot]

end HoldsRecords

/-! ## Reading records -/

variable {k : Keyed} {base : Content}

namespace HoldsRecords

/-- The store lists its slots, and those of nodes and edges are filled as the content says. -/
theorem lists (h : HoldsRecords k.layout used k.entries base) (hused : Unambiguous used) :
    ∃ filled, k.entries.Lists k.layout filled ∧ (∀ id, filled (.node id) = (base.node? id).map .node) ∧
      (∀ key, filled (.edge key) = (base.edge? key).map .edge) ∧
      ∀ key, filled (.incoming key) = (base.edge? key).map .edge := by
  obtain ⟨filled, hfilled, hat⟩ := h
  exact ⟨filled, hfilled.lists hused, fun id => hat (.node id) trivial,
    fun key => hat (.edge key) trivial, fun key => hat (.incoming key) trivial⟩

theorem node?_eq (h : HoldsRecords k.layout used k.entries base) (hused : Unambiguous used) (id : String) :
    k.node? id = .ok (base.node? id) := by
  obtain ⟨_, hlists, hnode, -, -⟩ := h.lists hused
  exact Keyed.node?_eq hlists (hnode id)

theorem edgesFrom_eq (h : HoldsRecords k.layout used k.entries base) (hused : Unambiguous used)
    (source : String) (target : Option String) (kind : Option EdgeKind) :
    ∃ keys, Enumerates (base.HasEdgeIn fun key => key.source = source &&
        (target.all fun t => key.target = t) && kind.all fun k => key.kind = k) keys ∧
      k.edgesFrom source target kind = .ok (keys.filterMap base.edge?) := by
  obtain ⟨_, hlists, -, hedge, -⟩ := h.lists hused
  exact Keyed.edgesFrom_eq hlists hedge base.key_eq source target kind

theorem edgesTo_eq (h : HoldsRecords k.layout used k.entries base) (hused : Unambiguous used)
    (target : String) (kind : Option EdgeKind) :
    ∃ keys, Enumerates (base.HasEdgeIn fun key =>
        key.target = target && kind.all fun k => key.kind = k) keys ∧
      k.edgesTo target kind = .ok (keys.filterMap base.edge?) := by
  obtain ⟨_, hlists, -, -, hincoming⟩ := h.lists hused
  exact Keyed.edgesTo_eq hlists hincoming base.key_eq target kind

theorem used_of_hasEdge (h : HoldsRecords k.layout used k.entries base) {key : EdgeKey}
    (hkey : base.hasEdge key = true) : used key.source ∧ used key.target := by
  obtain ⟨filled, hfilled, hat⟩ := h
  obtain ⟨e, he⟩ := Option.isSome_iff_exists.mp hkey
  refine hfilled.used (.edge key) (.edge e) ?_
  rw [hat (.edge key) trivial, Content.at?, he]
  rfl

end HoldsRecords

/-! ## What there is to delete -/

/-- The deletes of found edges are those of their keys. -/
theorem flatMap_found (base : Content) {keys : List EdgeKey} (h : ∀ key ∈ keys, base.hasEdge key = true)
    (layout : KeyLayout) :
    (keys.filterMap base.edge?).flatMap (fun e => edgeDeletes layout e.key) =
      slotDeletes layout (slotsOf [] keys) := by
  induction keys with
  | nil => rfl
  | cons key rest ih =>
      obtain ⟨e, he⟩ := Option.isSome_iff_exists.mp (h key List.mem_cons_self)
      rw [List.filterMap_cons, he, List.flatMap_cons, ih fun key hkey => h key (List.mem_cons_of_mem _ hkey),
        base.key_eq he]
      rfl

/-- What a node takes along when its edges can be read. -/
theorem nodeDeletes_of_edges {id : String} {leaving reaching : List Edge}
    (hfrom : k.edgesFrom id none none = .ok leaving) (hto : k.edgesTo id none = .ok reaching) :
    k.nodeDeletes id = .ok ((k.layout.nodeKeys id).map .delete ++
      (leaving ++ if k.settings.cascadeIncoming then reaching else []).flatMap fun e =>
        edgeDeletes k.layout e.key) := by
  unfold nodeDeletes
  rw [hfrom]
  cases k.settings.cascadeIncoming with
  | false => rfl
  | true =>
      rw [hto]
      rfl

/-- A node is deleted with its edges. -/
theorem HoldsRecords.nodeDeletes_eq (h : HoldsRecords k.layout used k.entries base)
    (hused : Unambiguous used) (id : String) :
    ∃ keys : List EdgeKey, k.nodeDeletes id = .ok (slotDeletes k.layout (slotsOf [id] keys)) ∧
      ∀ key, key ∈ keys ↔ base.hasEdge key = true ∧
        (key.source = id ∨ k.settings.cascadeIncoming = true ∧ key.target = id) := by
  obtain ⟨leaving, hleaving, hfrom⟩ := h.edgesFrom_eq hused id none none
  obtain ⟨reaching, hreaching, hto⟩ := h.edgesTo_eq hused id none
  have hfrom_iff : ∀ key, key ∈ leaving ↔ base.hasEdge key = true ∧ key.source = id := fun key => by
    rw [hleaving.mem_iff]
    simp [Content.HasEdgeIn]
  have hto_iff : ∀ key, key ∈ reaching ↔ base.hasEdge key = true ∧ key.target = id := fun key => by
    rw [hreaching.mem_iff]
    simp [Content.HasEdgeIn]
  -- What reaches the node is deleted only if the settings say so.
  let keys := leaving ++ if k.settings.cascadeIncoming then reaching else []
  have hkeys : ∀ key, key ∈ keys ↔ base.hasEdge key = true ∧
      (key.source = id ∨ k.settings.cascadeIncoming = true ∧ key.target = id) := fun key => by
    cases hcascade : k.settings.cascadeIncoming with
    | false => simp [keys, hcascade, hfrom_iff]
    | true => simp [keys, hcascade, hfrom_iff, hto_iff, and_or_left]
  have hedges : (leaving.filterMap base.edge? ++
      if k.settings.cascadeIncoming then reaching.filterMap base.edge? else []) =
        keys.filterMap base.edge? := by
    cases hcascade : k.settings.cascadeIncoming <;> simp [keys, hcascade]
  refine ⟨keys, ?_, hkeys⟩
  rw [nodeDeletes_of_edges hfrom hto, hedges, flatMap_found base fun key hkey => ((hkeys key).mp hkey).1]
  rfl

/-- Edges between two nodes are deleted: one that is named, or all that there are. -/
theorem HoldsRecords.betweenDeletes_eq (h : HoldsRecords k.layout used k.entries base)
    (hused : Unambiguous used) {source target : String} {kind : Option EdgeKind}
    (hends : kind.isSome = true → used source ∧ used target) :
    ∃ keys : List EdgeKey, k.betweenDeletes source target kind =
        .ok (slotDeletes k.layout (slotsOf [] keys)) ∧
      (∀ key ∈ keys, used key.source ∧ used key.target) ∧
      ∀ (policy : Policy) (c : Content), ∃ edges, c.step policy base (.deleteEdge source target kind) =
        c.drop (fun _ => false) edges ∧ ∀ key, key ∈ keys ↔ edges key = true := by
  cases kind with
  | some kind =>
      refine ⟨[⟨source, target, kind⟩], rfl, fun key hkey => ?_, fun _ c => ⟨_, rfl, fun key => by simp⟩⟩
      exact List.mem_singleton.mp hkey ▸ hends rfl
  | none =>
      obtain ⟨keys, hkeys, hfrom⟩ := h.edgesFrom_eq hused source (some target) none
      have hmem : ∀ key, key ∈ keys ↔ base.hasEdge key = true ∧
          (key.source = source ∧ key.target = target) := fun key => by
        rw [hkeys.mem_iff]
        simp [Content.HasEdgeIn]
      -- The edges that were found have these ends, so the keys made of the ends are their own.
      have hsame : ((keys.filterMap base.edge?).flatMap fun e =>
          edgeDeletes k.layout ⟨source, target, e.kind⟩) =
            (keys.filterMap base.edge?).flatMap fun e => edgeDeletes k.layout e.key := by
        refine List.flatMap_congr fun e he => ?_
        obtain ⟨key, hkey, hedge⟩ := List.mem_filterMap.mp he
        obtain ⟨-, rfl, rfl⟩ := (hmem key).mp hkey
        rw [← base.key_eq hedge]
        rfl
      refine ⟨keys, ?_, fun key hkey => h.used_of_hasEdge ((hmem key).mp hkey).1,
        fun _ c => ⟨_, rfl, fun key => by rw [hmem]; simp⟩⟩
      rw [← flatMap_found base (fun key hkey => ((hmem key).mp hkey).1) k.layout, ← hsame,
        betweenDeletes, hfrom]
      rfl

/-- The policy of a keyed store. -/
def policy (k : Keyed) : Policy := ⟨true, k.settings.cascadeIncoming, true⟩

/-- Without a span of life nothing that is saved expires. -/
theorem expiry_eq (hlife : k.settings.defaultLife = none) {life : Life} (h : ∀ d, life ≠ .span d) :
    k.expiry life = 0 := by
  cases life with
  | standard => rw [expiry, hlife]; rfl
  | forever => rfl
  | span d => exact absurd rfl (h d)

end Keyed

/-! ## Operations -/

/-- The life that an operation gives what it saves. -/
def Store.Operation.life : Store.Operation → Life
  | .saveGraph _ options => options.life
  | _ => .standard

/-- **What an operation submits**: it puts nodes and edges in, or it takes nodes and edges out, or
whatever there is. -/
theorem Keyed.submission_cases {k : Keyed} {op : Store.Operation} {writes : List ByteWrite}
    (h : k.submission op = .ok writes) :
    writes = op.savedNodes.flatMap (nodeWrites k.layout (k.expiry op.life)) ++
        op.savedEdges.flatMap (edgeWrites k.layout (k.expiry op.life)) ∨
      (∃ ids keys, writes = slotDeletes k.layout (slotsOf ids keys)) ∨ writes = k.allDeletes := by
  cases op with
  | saveNode n =>
      obtain rfl := Except.ok.inj h
      exact .inl (by simp [Store.Operation.savedNodes, Store.Operation.savedEdges, Store.Operation.life])
  | saveEdge e =>
      obtain rfl := Except.ok.inj h
      exact .inl (by simp [Store.Operation.savedNodes, Store.Operation.savedEdges, Store.Operation.life])
  | saveGraph g options => exact .inl (Except.ok.inj h).symm
  | deleteNode id => exact .inr (.inl ⟨[id], nodeDeletes_cases h⟩)
  | deleteEdge source target kind => exact .inr (.inl ⟨[], betweenDeletes_cases h⟩)
  | clear => exact .inr (.inr (Except.ok.inj h).symm)

/-- What an operation asks of a store whose records are looked at: what it saves stays for ever and
can be read again, and the ends of the edges that it saves or names are used. -/
def Store.Operation.SuitsRecords (used : String → Prop) : Store.Operation → Prop
  | .saveNode n => n.IsApart ∧ n.Fits
  | .saveEdge e => e.IsApart ∧ e.Fits ∧ used e.source ∧ used e.target
  | .saveGraph g options =>
      (∀ n ∈ g.nodeList, n.IsApart ∧ n.Fits) ∧
        (∀ e ∈ g.edgeList, e.IsApart ∧ e.Fits ∧ used e.source ∧ used e.target) ∧
        ∀ d, options.life ≠ .span d
  | .deleteNode _ => True
  | .deleteEdge source target kind => kind.isSome = true → used source ∧ used target
  | .clear => False

namespace Keyed

variable {used : String → Prop} {m : ByteMap} {base c : Content} {k : Keyed}

/-- **What an operation submits** keeps the records in step with the content, also if it was worked
out on the content at the beginning of a transaction. -/
theorem HoldsRecords.submission_eq (h : HoldsRecords k.layout used k.entries base)
    (hused : Unambiguous used) (hlife : k.settings.defaultLife = none)
    (hm : HoldsRecords k.layout used m c) {op : Store.Operation} (hop : op.SuitsRecords used) :
    ∃ writes, k.submission op = .ok writes ∧
      HoldsRecords k.layout used (m.writeAll writes) (c.step k.policy base op) := by
  have hstandard : k.expiry .standard = 0 := expiry_eq hlife fun d heq => by cases heq
  cases op with
  | saveNode n => exact ⟨_, rfl, hstandard ▸ hm.putNode hused hop.1 hop.2⟩
  | saveEdge e => exact ⟨_, rfl, hstandard ▸ hm.putEdge hused hop.1 hop.2.1 hop.2.2⟩
  | saveGraph g options =>
      obtain ⟨hnodes, hedges, hspan⟩ := hop
      refine ⟨_, rfl, ?_⟩
      rw [expiry_eq hlife hspan, graphWrites, ByteMap.writeAll_append]
      exact (hm.putNodes hused hnodes).putEdges hused hedges
  | deleteNode id =>
      obtain ⟨keys, hwrites, hkeys⟩ := h.nodeDeletes_eq hused id
      refine ⟨_, hwrites, hm.drop hused _ _ [id] keys (fun i => by simp) (fun key _ => ?_) fun key hkey => ?_⟩
      · rw [hkeys]
        simp [policy]
      · exact h.used_of_hasEdge ((hkeys key).mp hkey).1
  | deleteEdge source target kind =>
      obtain ⟨keys, hwrites, hends, hstep⟩ := h.betweenDeletes_eq hused hop
      obtain ⟨edges, hdrop, hkeys⟩ := hstep k.policy c
      refine ⟨_, hwrites, ?_⟩
      rw [hdrop]
      exact hm.drop hused _ _ [] keys (fun i => by simp) (fun key _ => hkeys key) hends
  | clear => exact hop.elim

/-! ## What operations and transactions uphold -/

/-- Changes of a sort keep what holds of the entries under some keys: none at all are of the sort, and so are
some followed by others. -/
structure Sustains (holds : KeyLayout → ByteMap → Prop) (sort : KeyLayout → List ByteWrite → Prop) : Prop where
  nil (layout : KeyLayout) : sort layout []
  append {layout : KeyLayout} {first next : List ByteWrite} (hfirst : sort layout first)
    (hnext : sort layout next) : sort layout (first ++ next)
  writeAll {layout : KeyLayout} {m : ByteMap} {writes : List ByteWrite} (hm : holds layout m)
    (hwrites : sort layout writes) : holds layout (m.writeAll writes)

/-- Something holds of the entries, and what is collected is of a sort that keeps it. -/
structure Upholds (k : Keyed) (holds : KeyLayout → ByteMap → Prop)
    (sort : KeyLayout → List ByteWrite → Prop) : Prop where
  entries : holds k.layout k.entries
  collected : sort k.layout k.collected.toList

theorem settings_submit (k : Keyed) (writes : List ByteWrite) : (k.submit writes).settings = k.settings := by
  unfold submit
  split <;> rfl

namespace Upholds

variable {holds : KeyLayout → ByteMap → Prop} {sort : KeyLayout → List ByteWrite → Prop}

/-- Entries with which nothing waits. -/
theorem ofEntries (hsort : Sustains holds sort) {settings : KeyedSettings} {m : ByteMap}
    (hm : holds ⟨settings.keyRoot⟩ m) (now : UInt64) : (Keyed.ofEntries settings m now).Upholds holds sort :=
  ⟨hm, hsort.nil _⟩

/-- **What is submitted** is made, or waits behind what was collected before. -/
theorem submit (h : k.Upholds holds sort) (hsort : Sustains holds sort) {writes : List ByteWrite}
    (hwrites : sort k.layout writes) : (k.submit writes).Upholds holds sort := by
  cases hopen : k.isOpen with
  | true =>
      have hall : (k.collected ++ writes).toList = k.collected.toList ++ writes := by simp
      rw [submit_of_isOpen hopen]
      exact ⟨h.entries, hall ▸ hsort.append h.collected hwrites⟩
  | false =>
      rw [submit_of_not_isOpen hopen]
      exact ⟨hsort.writeAll h.entries hwrites, h.collected⟩

/-- **A transaction is left**, and what it collected waits on, or it is dropped. -/
theorem leaveScope (h : k.Upholds holds sort) (hsort : Sustains holds sort) :
    k.leaveScope.Upholds holds sort := by
  refine ⟨h.entries, ?_⟩
  show sort k.layout (if k.depth = 1 then #[] else k.collected).toList
  split
  · exact hsort.nil _
  · exact h.collected

/-- **A transaction ends well**, and what it collected is made on the entries as they are now. -/
theorem commit (h : k.Upholds holds sort) (hsort : Sustains holds sort) : k.commit.Upholds holds sort :=
  leaveScope (k := { k with entries := k.entries.writeAll k.collected.toList, collected := #[] })
    ⟨hsort.writeAll h.entries h.collected, hsort.nil _⟩ hsort

end Upholds

end Keyed

end ProgramGraph
