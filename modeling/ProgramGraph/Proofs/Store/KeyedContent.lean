import ProgramGraph.Proofs.Store.KeyedRecords

set_option autoImplicit false

/-! # The content of a keyed store

A keyed store holds a content if its entries are those of the slots that the content fills. What
it submits for an operation turns the slots into those of the content after `Content.step`, also
if it has worked out what to delete on an earlier content, and it shows the content that it
holds.
-/

namespace ProgramGraph

open ProgramGraph.Text

/-- What is agreed about the identifiers in a keyed store. -/
structure Convention where
  /-- The kind of the node with an identifier. -/
  kindOf : String → NodeKind
  /-- An identifier may be an end of an edge. -/
  used : String → Prop
  unambiguous : Unambiguous used

namespace Keyed

/-- The entries are those of the content, whose nodes have the agreed kinds. -/
structure Holds (layout : KeyLayout) (conv : Convention) (entries : ByteMap) (c : Content) : Prop where
  slots : entries.Holds layout conv.used c.at?
  kinds : c.HasKinds conv.kindOf

variable {layout : KeyLayout} {conv : Convention} {m : ByteMap} {c : Content}

theorem holds_empty (layout : KeyLayout) (conv : Convention) : Holds layout conv ∅ ∅ :=
  ⟨ByteMap.holds_empty layout conv.used, fun id n h => by cases h⟩

/-! ## Writing -/

/-- A node is put in. -/
theorem Holds.putNode (h : Holds layout conv m c) {n : Node} (hapart : n.IsApart) (hfits : n.Fits)
    (hkind : n.kind = conv.kindOf n.id) :
    Holds layout conv (m.writeAll (nodeWrites layout 0 n)) (c.putNode n.reread) where
  slots := by
    have hold : ∀ old, c.node? n.reread.id = some old → old.kind = n.reread.kind := fun old hold =>
      (h.kinds n.id old hold).trans hkind.symm
    rw [Content.at?_putNode hold]
    exact h.slots.putNode conv.unambiguous hapart hfits
  kinds id m hm := by
    by_cases hid : id = n.id
    · subst hid
      have hm : some n.reread = some m := by simpa [Content.putNode] using hm
      rw [← Option.some.inj hm, Node.reread_kind, hkind]
    · have hm : c.node? id = some m := by simpa [Content.putNode, hid] using hm
      exact h.kinds id m hm

/-- An edge is put in. -/
theorem Holds.putEdge (h : Holds layout conv m c) {e : Edge} (hapart : e.IsApart) (hfits : e.Fits)
    (hends : conv.used e.source ∧ conv.used e.target) :
    Holds layout conv (m.writeAll (edgeWrites layout 0 e)) (c.putEdge true e.reread) where
  slots := by
    rw [Content.at?_putEdge]
    exact h.slots.putEdge conv.unambiguous hapart hfits hends
  kinds := h.kinds

theorem Holds.putNodes (h : Holds layout conv m c) {nodes : List Node}
    (hnodes : ∀ n ∈ nodes, n.IsApart ∧ n.Fits ∧ n.kind = conv.kindOf n.id) :
    Holds layout conv (m.writeAll (nodes.flatMap (nodeWrites layout 0)))
      (nodes.foldl (fun acc n => acc.putNode n.reread) c) := by
  induction nodes generalizing m c with
  | nil => exact h
  | cons n rest ih =>
      obtain ⟨hapart, hfits, hkind⟩ := hnodes n List.mem_cons_self
      rw [List.flatMap_cons, ByteMap.writeAll_append]
      exact ih (h.putNode hapart hfits hkind) fun m hm => hnodes m (List.mem_cons_of_mem _ hm)

theorem Holds.putEdges (h : Holds layout conv m c) {edges : List Edge}
    (hedges : ∀ e ∈ edges, e.IsApart ∧ e.Fits ∧ conv.used e.source ∧ conv.used e.target) :
    Holds layout conv (m.writeAll (edges.flatMap (edgeWrites layout 0)))
      (edges.foldl (fun acc e => acc.putEdge true e.reread) c) := by
  induction edges generalizing m c with
  | nil => exact h
  | cons e rest ih =>
      obtain ⟨hapart, hfits, hends⟩ := hedges e List.mem_cons_self
      rw [List.flatMap_cons, ByteMap.writeAll_append]
      exact ih (h.putEdge hapart hfits hends) fun d hd => hedges d (List.mem_cons_of_mem _ hd)

/-! ## Reading -/

/-- The store holds the content. -/
def HoldsContent (k : Keyed) (conv : Convention) (c : Content) : Prop :=
  Holds k.layout conv k.entries c

variable {k : Keyed}

/-- The store lists its slots, filled as the content says. -/
theorem HoldsContent.lists (h : k.HoldsContent conv c) : k.entries.Lists k.layout c.at? :=
  h.slots.lists conv.unambiguous

/-- So its records are those of the content. -/
theorem HoldsContent.records (h : k.HoldsContent conv c) : HoldsRecords k.layout conv.used k.entries c :=
  ⟨c.at?, h.slots, fun _ _ => rfl⟩

/-- The value of a node is the node. -/
theorem HoldsContent.decodeNode_eq (h : k.HoldsContent conv c) {id : String} {n : Node}
    (hn : c.node? id = some n) :
    k.live? (k.layout.node id) = some (k.payloadAt (k.layout.node id)) ∧
      decodeNode (k.payloadAt (k.layout.node id)) = .ok n :=
  Keyed.decodeNode_eq h.lists (by simp [Content.at?, hn])

theorem HoldsContent.hasNode_eq (h : k.HoldsContent conv c) (id : String) :
    k.hasNode id = c.hasNode id := by
  unfold Keyed.hasNode Content.hasNode
  cases hn : c.node? id with
  | none =>
      have hnone : k.live? (k.layout.node id) = none := live?_node_none h.lists (by simp [Content.at?, hn])
      rw [hnone]
      rfl
  | some n =>
      rw [(h.decodeNode_eq hn).1]
      rfl

/-! ### Nodes -/

theorem isSome_at?_kind (c : Content) (kind : NodeKind) (id : String) :
    (c.at? (.nodeOfKind kind id)).isSome = true ↔ c.HasNodeOf (some kind) id := by
  cases hn : c.node? id with
  | none => simp [Content.at?, Content.HasNodeOf, hn]
  | some n => by_cases hk : n.kind = kind <;> simp [Content.at?, Content.HasNodeOf, hn, hk]

theorem HoldsContent.idsOfKind_eq (h : k.HoldsContent conv c) (kind : NodeKind) :
    Enumerates (c.HasNodeOf (some kind)) (k.idsOfKind kind) :=
  (Keyed.idsOfKind_eq h.lists kind).1.congr fun id => isSome_at?_kind c kind id

/-- The identifiers under the kind that is asked for, or under every kind. -/
theorem HoldsContent.enumerates_ids (h : k.HoldsContent conv c) (kind : Option NodeKind) :
    Enumerates (c.HasNodeOf kind) ((kind.elim NodeKind.all List.singleton).flatMap k.idsOfKind) := by
  cases kind with
  | some kind =>
      show Enumerates _ ([kind].flatMap k.idsOfKind)
      rw [List.flatMap_singleton]
      exact h.idsOfKind_eq kind
  | none =>
      -- A node has one kind, so no identifier stands under two of them.
      have hone : ∀ {a b : NodeKind} {id : String},
          c.HasNodeOf (some a) id → c.HasNodeOf (some b) id → a = b := by
        rintro a b id ⟨n, hn, hkind⟩ ⟨m, hm, hkind'⟩
        obtain rfl := Option.some.inj (hn.symm.trans hm)
        simp only [Option.all_some, decide_eq_true_eq] at hkind hkind'
        exact hkind.symm.trans hkind'
      refine (enumerates_flatMap_kinds h.idsOfKind_eq hone).congr fun id => ?_
      constructor
      · rintro ⟨kind, n, hn, -⟩
        exact ⟨n, hn, rfl⟩
      · rintro ⟨n, hn, -⟩
        exact ⟨n.kind, n, hn, by simp⟩

theorem HoldsContent.findNodes_eq (h : k.HoldsContent conv c) (kind : Option NodeKind)
    (filter : Filter) (limit : Option Nat) (offset : Nat) :
    ∃ ids, Enumerates (c.HasNodeOf kind) ids ∧ ids.Pairwise (· < ·) ∧
      k.findNodes kind filter limit offset =
        .ok (pageOf filter limit offset (ids.filterMap c.node?)) := by
  have hids := h.enumerates_ids kind
  have hperm := k.sortedIds_perm kind
  have hsorted : Enumerates (c.HasNodeOf kind) (k.sortedIds kind) :=
    ⟨hperm.nodup_iff.mpr hids.nodup, fun id => hperm.mem_iff.trans (hids.mem_iff id)⟩
  refine ⟨k.sortedIds kind, hsorted, ?_,
    Keyed.findNodes_eq h.lists (fun _ => rfl) kind filter limit offset⟩
  refine ((k.sortedIds_ascend kind).and hsorted.nodup).imp fun {a b} h => ?_
  by_contra hnot
  exact h.2 (String.le_antisymm h.1 (String.not_lt.mp hnot))

/-! ### Counts -/

theorem HoldsContent.nodeCount_eq (h : k.HoldsContent conv c) (kind : Option NodeKind) :
    ∃ ids, Enumerates (c.HasNodeOf kind) ids ∧ k.nodeCount kind = ids.length := by
  cases kind with
  | some kind => exact ⟨_, h.idsOfKind_eq kind, (Keyed.idsOfKind_eq h.lists kind).2⟩
  | none =>
      obtain ⟨ids, hids, hcount⟩ := Keyed.nodeCount_eq h.lists
      refine ⟨ids, hids.congr fun id => ?_, hcount⟩
      show ((c.node? id).map _).isSome = true ↔ _
      rw [isSome_map, Option.isSome_iff_exists]
      simp [Content.HasNodeOf]

theorem HoldsContent.edgeCount_eq (h : k.HoldsContent conv c) (kind : Option EdgeKind) :
    ∃ keys, Enumerates (c.HasEdgeIn fun key => kind.all fun k => key.kind = k) keys ∧
      k.edgeCount kind = keys.length := by
  cases kind with
  | some kind =>
      obtain ⟨keys, hkeys, hcount⟩ := edgeCount_kind_eq h.lists kind
      refine ⟨keys, hkeys.congr fun key => ?_, hcount⟩
      show ((c.edge? key).map _).isSome = true ∧ _ ↔ _
      rw [isSome_map]
      simp [Content.HasEdgeIn, Content.hasEdge]
  | none =>
      obtain ⟨keys, hkeys, hcount⟩ := Keyed.edgeCount_eq h.lists
      refine ⟨keys, hkeys.congr fun key => ?_, hcount⟩
      show ((c.edge? key).map _).isSome = true ↔ _
      rw [isSome_map]
      simp [Content.HasEdgeIn, Content.hasEdge]

/-- Every counted edge has an entry. -/
theorem edgeCount_le (k : Keyed) (kind : Option EdgeKind) : k.edgeCount kind ≤ k.entries.size := by
  refine Nat.le_trans (List.length_filterMap_le _ _) ?_
  rw [ByteMap.scan_eq_filter, ← Std.TreeMap.length_toList]
  exact List.length_filter_le _ _

/-- **A keyed store shows what it holds.** -/
theorem HoldsContent.shows (h : k.HoldsContent conv c) : (Store.keyed k).Shows c where
  node? := h.records.node?_eq conv.unambiguous
  node id := by
    show k.node id = _
    rw [node, h.records.node?_eq conv.unambiguous]
    cases c.node? id <;> rfl
  hasNode id := congrArg Except.ok (h.hasNode_eq id)
  findNodes kind filter limit offset _ := h.findNodes_eq kind filter limit offset
  nodeCount kind := by
    obtain ⟨ids, hids, hcount⟩ := h.nodeCount_eq kind
    exact ⟨ids, hids, congrArg Except.ok hcount⟩
  edgesFrom := h.records.edgesFrom_eq conv.unambiguous
  edgesTo := h.records.edgesTo_eq conv.unambiguous
  edgeCount kind := by
    obtain ⟨keys, hkeys, hcount⟩ := h.edgeCount_eq kind
    exact ⟨keys, hkeys, congrArg Except.ok hcount⟩
  edgeBound hkeys := by
    obtain ⟨keys, hall, hcount⟩ := h.edgeCount_eq none
    rw [hkeys.length_eq hall fun key => by simp [Content.HasEdgeIn], ← hcount]
    exact k.edgeCount_le none
  statistics := ⟨k.statistics, fun kind => k.nodeCount (some kind), fun kind => k.edgeCount (some kind),
    rfl, rfl, rfl, fun _ => rfl, fun _ => rfl, rfl, rfl⟩

/-! ## Deleting -/

/-- Taking some nodes and edges out empties their slots. -/
theorem Holds.drop (h : Holds layout conv m c) (nodes : String → Bool) (edges : EdgeKey → Bool)
    (ids : List String) (keys : List EdgeKey) (hids : ∀ id, id ∈ ids ↔ nodes id = true)
    (hkeys : ∀ key, c.hasEdge key = true → (key ∈ keys ↔ edges key = true))
    (hused : ∀ key ∈ keys, conv.used key.source ∧ conv.used key.target) :
    Holds layout conv (m.writeAll (slotDeletes layout (slotsOf ids keys))) (c.drop nodes edges) where
  slots := by
    rw [at?_drop_slotsOf c nodes edges ids keys hids hkeys]
    exact h.slots.deleteAll conv.unambiguous (isUsed_of_mem_slotsOf hused)
  kinds id n hn := by
    by_cases hgone : nodes id = true
    · simp [Content.drop, hgone] at hn
    · exact h.kinds id n (by simpa [Content.drop, hgone] using hn)

variable {base : Content}

/-- Everything is deleted. -/
theorem HoldsContent.allDeletes_eq (h : k.HoldsContent conv base) (hm : Holds k.layout conv m c) :
    Holds k.layout conv (m.writeAll k.allDeletes) (c.step k.policy base .clear) := by
  have hfamily : ∀ slot : Slot, k.layout.start [] <+: slot.bytes k.layout ↔
      ∃ s : Slot, True ∧ slot = s := fun slot => by simp [Slot.start_nil_isPrefix]
  obtain ⟨slots, hslots, hkeys⟩ :=
    h.lists.keysUnder_eq (fun _ _ heq => heq) hfamily
  have hmem : ∀ slot, slot ∈ slots ↔ (base.at? slot).isSome = true := fun slot => by
    rw [hslots.mem_iff, and_true]
  have hwrites : k.allDeletes = slots.map fun slot => .delete (slot.bytes k.layout) := by
    rw [allDeletes_eq_keysUnder, hkeys, List.map_map]
    rfl
  refine ⟨?_, fun id n hn => ?_⟩
  · have hused : ∀ slot ∈ slots, slot.IsUsed conv.used := fun slot hslot => by
      obtain ⟨v, hv⟩ := Option.isSome_iff_exists.mp ((hmem slot).mp hslot)
      exact h.slots.used slot v hv
    -- The slots are those of the content before the transaction, and they are emptied in the one of now.
    have hstep : (c.step k.policy base .clear).at? =
        fun slot => if slot ∈ slots then none else c.at? slot := by
      refine Content.at?_drop base.hasNode base.hasEdge slots (fun id n _ => ?_) (fun id n hn => ?_)
        (fun key _ => ?_) (fun key _ => ?_) fun key _ => ?_
      · rw [hmem]
        simp [Content.at?, Content.hasNode]
      · rw [hmem, isSome_at?_kind]
        constructor
        · rintro ⟨b, hb, -⟩
          simp [Content.hasNode, hb]
        · intro hbase
          obtain ⟨b, hb⟩ := Option.isSome_iff_exists.mp hbase
          exact ⟨b, hb, by simp [h.kinds id b hb, hm.kinds id n hn]⟩
      all_goals
        rw [hmem]
        simp [Content.at?, Content.hasEdge]
    rw [hwrites, hstep]
    exact hm.slots.deleteAll conv.unambiguous hused
  · by_cases hgone : base.hasNode id = true
    · simp [Content.step, Content.drop, hgone] at hn
    · exact hm.kinds id n (by simpa [Content.step, Content.drop, hgone] using hn)

end Keyed

/-! ## Operations -/

/-- What an operation asks of a keyed store and of what is agreed about identifiers: what it
saves stays for ever, can be read again and keeps to the agreement, and so does an edge that it
names. -/
structure Store.Operation.SuitsEntries (conv : Convention) (op : Store.Operation) : Prop where
  nodes : ∀ n ∈ op.savedNodes, n.IsApart ∧ n.Fits ∧ n.kind = conv.kindOf n.id
  edges : ∀ e ∈ op.savedEdges, e.IsApart ∧ e.Fits ∧ conv.used e.source ∧ conv.used e.target
  life : ∀ g options, op = .saveGraph g options → ∀ d, options.life ≠ .span d
  ends : ∀ source target kind, op = .deleteEdge source target (some kind) →
    conv.used source ∧ conv.used target

namespace Keyed

variable {conv : Convention} {m : ByteMap} {base c : Content} {k : Keyed}

/-- **What an operation submits** keeps step with the content, also if it was worked out on the
content at the beginning of a transaction. -/
theorem HoldsContent.submission_eq (h : k.HoldsContent conv base)
    (hlife : k.settings.defaultLife = none) (hm : Holds k.layout conv m c) {op : Store.Operation}
    (hop : op.SuitsEntries conv) :
    ∃ writes, k.submission op = .ok writes ∧
      Holds k.layout conv (m.writeAll writes) (c.step k.policy base op) := by
  have hstandard : k.expiry .standard = 0 := expiry_eq hlife fun d heq => by cases heq
  cases op with
  | saveNode n =>
      obtain ⟨hapart, hfits, hkind⟩ := hop.nodes n (List.mem_singleton_self n)
      exact ⟨_, rfl, hstandard ▸ hm.putNode hapart hfits hkind⟩
  | saveEdge e =>
      obtain ⟨hapart, hfits, hends⟩ := hop.edges e (List.mem_singleton_self e)
      exact ⟨_, rfl, hstandard ▸ hm.putEdge hapart hfits hends⟩
  | saveGraph g options =>
      refine ⟨_, rfl, ?_⟩
      rw [expiry_eq hlife (hop.life g options rfl), graphWrites, ByteMap.writeAll_append]
      exact (hm.putNodes hop.nodes).putEdges hop.edges
  -- the keys were gathered on the content at the beginning
  | deleteNode id =>
      obtain ⟨keys, hwrites, hkeys⟩ := h.records.nodeDeletes_eq conv.unambiguous id
      refine ⟨_, hwrites, hm.drop _ _ [id] keys (fun i => by simp) (fun key _ => ?_) fun key hkey => ?_⟩
      · rw [hkeys]
        simp [policy]
      · exact h.records.used_of_hasEdge ((hkeys key).mp hkey).1
  | deleteEdge source target kind =>
      have hnamed : kind.isSome = true → conv.used source ∧ conv.used target := fun hkind => by
        obtain ⟨k, rfl⟩ := Option.isSome_iff_exists.mp hkind
        exact hop.ends source target k rfl
      obtain ⟨keys, hwrites, hends, hstep⟩ := h.records.betweenDeletes_eq conv.unambiguous hnamed
      obtain ⟨edges, hdrop, hkeys⟩ := hstep k.policy c
      refine ⟨_, hwrites, ?_⟩
      rw [hdrop]
      exact hm.drop _ _ [] keys (fun i => by simp) (fun key _ => hkeys key) hends
  | clear => exact ⟨_, rfl, h.allDeletes_eq hm⟩

end Keyed

end ProgramGraph
