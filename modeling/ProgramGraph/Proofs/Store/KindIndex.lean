import ProgramGraph.Proofs.Store.KeyedReachable

set_option autoImplicit false

/-! # Nodes under their kinds

A keyed store says the kind of a node twice: in the entry of the node, and by a mark under the kind.
Listing and counting the nodes of a kind go by the marks. So a store lists its nodes by kind just if
its marks agree with its nodes (`Keyed.MarksAgree`).

Saving a node again under another kind leaves the mark under the old kind where it is, and the two no
longer agree (`Keyed.saveNode_keeps_old_mark`). In a store where no identifier is saved under two kinds
they do, whatever else happens (`Keyed.ReachableBy.listsKinds_iff_marksAgree`): a node and its mark are put in
together, and also where what is to be deleted was worked out on another map, they are deleted together.

What operations preserve is said of the nodes as they were saved (`ByteMap.KeepsNodes`), and what a store answers of
the nodes as they are read (`ByteMap.readSlots`), which come into play only where they can be read.
-/

namespace ProgramGraph

open ProgramGraph.Text

/-! ## Nodes and marks in slots -/

namespace ByteMap

/-- A node that is stored can be read, and stands under its own identifier. -/
structure HoldsNodes (m : ByteMap) (layout : KeyLayout) (filled : Slot → Option Stored) : Prop
    extends Lists m layout filled where
  nodes : ∀ {id v}, filled (.node id) = some v → ∃ n : Node, v = .node n ∧ n.id = id

/-- Besides, it has the kind that is agreed for its identifier, and a mark under this kind. There are
no other marks. -/
structure IsIndexed (m : ByteMap) (layout : KeyLayout) (kindOf : String → NodeKind)
    (filled : Slot → Option Stored) : Prop extends HoldsNodes m layout filled where
  kind_eq : ∀ {id n}, filled (.node id) = some (.node n) → n.kind = kindOf id
  marked_iff : ∀ kind id, (filled (.nodeOfKind kind id)).isSome = true ↔
    (filled (.node id)).isSome = true ∧ kind = kindOf id

/-- Under the key of a node stands one of the nodes that are kept, with this identifier. Whether it can be read
again is left open. -/
structure KeepsNodes (m : ByteMap) (layout : KeyLayout) (kept : Node → Prop) (filled : Slot → Option Stored) : Prop
    extends Lists m layout filled where
  record : ∀ id entry, m[(Slot.node id).bytes layout]? = some entry →
    ∃ n, kept n ∧ n.id = id ∧ entry = Envelope.pack 0 (MsgPack.encode n.toWire)

/-- Just the identifiers of nodes have a mark, and only under the kinds agreed for them. -/
def MarksKinds (kindOf : String → NodeKind) (filled : Slot → Option Stored) : Prop :=
  ∀ kind id, (filled (.nodeOfKind kind id)).isSome = true ↔ (filled (.node id)).isSome = true ∧ kind = kindOf id

variable {m : ByteMap} {layout : KeyLayout} {filled : Slot → Option Stored} {kindOf : String → NodeKind}
  {kept : Node → Prop}

theorem keepsNodes_empty (layout : KeyLayout) (kept : Node → Prop) : KeepsNodes ∅ layout kept fun _ => none where
  toLists := (isTidy_empty layout).toLists
  record id entry h := by simp at h

theorem marksKinds_none (kindOf : String → NodeKind) : MarksKinds kindOf fun _ => none := by
  intro kind id
  simp

/-- A node is put in, and its mark under its kind. -/
theorem KeepsNodes.putNode (h : m.KeepsNodes layout kept filled) {n : Node} (hkept : kept n) :
    ∃ filled', (m.writeAll (Keyed.nodeWrites layout 0 n)).KeepsNodes layout kept filled' ∧
      ∀ kindOf, n.kind = kindOf n.id → MarksKinds kindOf filled → MarksKinds kindOf filled' := by
  have hlists := (h.toLists.put (.node n.id) (Stored.mark_isIn (MsgPack.encode n.toWire))).put
    (.nodeOfKind n.kind n.id) (Stored.mark_isIn [])
  refine ⟨_, ⟨hlists, fun id entry hentry => ?_⟩, fun kindOf hkind hmarks kind id => ?_⟩
  · change ((m.insert ((Slot.node n.id).bytes layout) _).insert ((Slot.nodeOfKind n.kind n.id).bytes layout)
      _)[(Slot.node id).bytes layout]? = some entry at hentry
    rw [getElem?_inserted, getElem?_inserted] at hentry
    -- The mark is put in after the node, under a key that no node has.
    have hother : (Slot.node id).bytes layout ≠ (Slot.nodeOfKind n.kind n.id).bytes layout := by
      rw [Ne, Slot.nodeOfKind_bytes_eq_iff]
      simp
    rw [if_neg hother] at hentry
    split at hentry
    · rename_i hsame
      obtain rfl : id = n.id := Slot.node.inj (Slot.node_bytes_eq_iff.mp hsame)
      exact ⟨n, hkept, rfl, (Option.some.inj hentry).symm⟩
    · exact h.record id entry hentry
  · simp only [filledAt, Slot.nodeOfKind_bytes_eq_iff, Slot.node_bytes_eq_iff, hkind]
    by_cases hid : id = n.id
    · subst hid
      by_cases hk : kind = kindOf n.id <;> simp [hk, hmarks kind n.id]
    · simp [hid, hmarks kind id]

/-- An edge is put in, which does not touch nodes and their marks. -/
theorem Lists.putEdge (h : m.Lists layout filled) (e : Edge) :
    ∃ filled', (m.writeAll (Keyed.edgeWrites layout 0 e)).Lists layout filled' ∧
      (∀ id, filled' (.node id) = filled (.node id)) ∧
      ∀ kind id, filled' (.nodeOfKind kind id) = filled (.nodeOfKind kind id) := by
  have hmark := Stored.mark_isIn (MsgPack.encode e.toWire)
  have hput := ((h.put (.edge e.key) hmark).put (.incoming e.key) hmark).put (.edgeOfKind e.key)
    (Stored.mark_isIn [])
  refine ⟨_, hput, fun id => ?_, fun kind id => ?_⟩
  all_goals
    rw [filledAt_of_family (by simp [Slot.family]), filledAt_of_family (by simp [Slot.family]),
      filledAt_of_family (by simp [Slot.family])]

theorem KeepsNodes.putEdge (h : m.KeepsNodes layout kept filled) (e : Edge) :
    ∃ filled', (m.writeAll (Keyed.edgeWrites layout 0 e)).KeepsNodes layout kept filled' ∧
      ∀ kindOf, MarksKinds kindOf filled → MarksKinds kindOf filled' := by
  obtain ⟨filled', hlists, hnode, hmark⟩ := h.toLists.putEdge e
  refine ⟨filled', ⟨hlists, fun id entry hentry => ?_⟩, fun kindOf hmarks kind id => ?_⟩
  · change (((m.insert ((Slot.edge e.key).bytes layout) _).insert ((Slot.incoming e.key).bytes layout) _).insert
      ((Slot.edgeOfKind e.key).bytes layout) _)[(Slot.node id).bytes layout]? = some entry at hentry
    have hother : ∀ {slot : Slot}, slot ≠ .node id → (Slot.node id).bytes layout ≠ slot.bytes layout := by
      intro slot hslot heq
      exact hslot (Slot.node_bytes_eq_iff.mp heq.symm)
    rw [getElem?_inserted, getElem?_inserted, getElem?_inserted, if_neg (hother (by simp)),
      if_neg (hother (by simp)), if_neg (hother (by simp))] at hentry
    exact h.record id entry hentry
  · rw [hmark, hnode]
    exact hmarks kind id

/-- The slots after keys are deleted. -/
def withoutKeys (layout : KeyLayout) (keys : List Bytes) (filled : Slot → Option Stored) :
    Slot → Option Stored := fun s => if keys.contains (s.bytes layout) then none else filled s

theorem withoutKeys_eq (keys : List Bytes) :
    withoutKeys layout keys filled = fun s => if s.bytes layout ∈ keys then none else filled s := by
  funext s
  by_cases hmem : s.bytes layout ∈ keys <;> simp [withoutKeys, hmem]

theorem KeepsNodes.deleteAll (h : m.KeepsNodes layout kept filled) (keys : List Bytes) :
    (m.writeAll (keys.map .delete)).KeepsNodes layout kept (withoutKeys layout keys filled) where
  toLists := by
    rw [withoutKeys_eq]
    exact h.toLists.deleteAll keys
  record id entry hentry := by
    rw [getElem?_deleteAll] at hentry
    split at hentry
    · cases hentry
    · exact h.record id entry hentry

/-- Where a node and its mark lose their keys together, marks go on to stand for nodes. -/
theorem MarksKinds.withoutKeys (hmarked : MarksKinds kindOf filled) {keys : List Bytes}
    (hkeys : ∀ id, (Slot.node id).bytes layout ∈ keys ↔ (Slot.nodeOfKind (kindOf id) id).bytes layout ∈ keys) :
    MarksKinds kindOf (withoutKeys layout keys filled) := by
  intro kind id
  by_cases hk : kind = kindOf id
  · subst hk
    have hboth := hmarked (kindOf id) id
    by_cases hmem : (Slot.node id).bytes layout ∈ keys
    · simp [withoutKeys_eq, hmem, (hkeys id).mp hmem]
    · simp [withoutKeys_eq, hmem, mt (hkeys id).mpr hmem, hboth]
  · -- There is no mark under another kind, and none comes up.
    have hnone : ¬(filled (.nodeOfKind kind id)).isSome = true := fun h' => hk ((hmarked kind id).mp h').2
    simp only [withoutKeys_eq, hk, and_false, iff_false]
    split_ifs
    · exact Bool.false_ne_true
    · exact hnone

/-- A slot that shares its key with no other is filled just if the map has the key. -/
theorem Lists.mem_iff_isSome (h : m.Lists layout filled) {slot : Slot}
    (hown : ∀ s : Slot, s.bytes layout = slot.bytes layout ↔ s = slot) :
    slot.bytes layout ∈ m ↔ (filled slot).isSome = true := by
  rw [Std.TreeMap.mem_iff_isSome_getElem?, Option.isSome_iff_exists, Option.isSome_iff_exists]
  constructor
  · rintro ⟨entry, hentry⟩
    obtain ⟨s, v, hv, hbytes, -⟩ := h.sound _ entry hentry
    exact ⟨v, (hown s).mp hbytes ▸ hv⟩
  · rintro ⟨v, hv⟩
    obtain ⟨entry, hentry, -⟩ := h.complete slot v hv
    exact ⟨entry, hentry⟩

/-- Where marks stand for nodes, both have their keys in the map or neither has. -/
theorem Lists.mem_node_iff (h : m.Lists layout filled) (hmarked : MarksKinds kindOf filled) (id : String) :
    (Slot.node id).bytes layout ∈ m ↔ (Slot.nodeOfKind (kindOf id) id).bytes layout ∈ m := by
  rw [h.mem_iff_isSome fun _ => Slot.node_bytes_eq_iff, h.mem_iff_isSome fun _ => Slot.nodeOfKind_bytes_eq_iff,
    hmarked, and_iff_left rfl]

/-- The same holds of all keys of the store, which need not be those of the map that they are deleted from. -/
theorem Lists.mem_allKeys_iff (h : m.Lists layout filled) (hmarked : MarksKinds kindOf filled) (id : String) :
    (Slot.node id).bytes layout ∈ m.keysUnder (layout.start []) ↔
      (Slot.nodeOfKind (kindOf id) id).bytes layout ∈ m.keysUnder (layout.start []) := by
  rw [mem_keysUnder, mem_keysUnder, h.mem_node_iff hmarked, and_iff_left (Slot.start_nil_isPrefix _),
    and_iff_left (Slot.start_nil_isPrefix _)]

/-! ## Nodes as they are read -/

/-- The slots with the nodes in them as they are read. -/
def readSlots (m : ByteMap) (layout : KeyLayout) (filled : Slot → Option Stored) : Slot → Option Stored
  | .node id => do
      let entry ← m[(Slot.node id).bytes layout]?
      let payload ← Envelope.unpack? 0 entry
      (Keyed.decodeNode payload).toOption.map .node
  | slot => filled slot

section Reads

variable (h : m.KeepsNodes layout kept filled)
  (hreads : ∀ n, kept n → m[(Slot.node n.id).bytes layout]? = some (Envelope.pack 0 (MsgPack.encode n.toWire)) →
    ∃ d, n.ReadsAs d)

include h hreads

/-- What stands under the key of a node, and how it is read. -/
theorem KeepsNodes.readSlots_cases (id : String) :
    (filled (.node id) = none ∧ m.readSlots layout filled (.node id) = none) ∨
      ∃ n d, kept n ∧ n.id = id ∧ n.ReadsAs d ∧ (filled (.node id)).isSome = true ∧
        m[(Slot.node id).bytes layout]? = some (Envelope.pack 0 (MsgPack.encode n.toWire)) ∧
          m.readSlots layout filled (.node id) = some (.node d) := by
  have hthere : (Slot.node id).bytes layout ∈ m ↔ (filled (.node id)).isSome = true :=
    h.toLists.mem_iff_isSome fun _ => Slot.node_bytes_eq_iff
  rw [Std.TreeMap.mem_iff_isSome_getElem?] at hthere
  -- The key of a node belongs to this slot alone, so the slot is filled just if there is an entry.
  cases hentry : m[(Slot.node id).bytes layout]? with
  | none =>
      rw [hentry] at hthere
      have hfilled : filled (.node id) = none := by
        rw [← Option.not_isSome_iff_eq_none]
        exact fun hsome => absurd (hthere.mpr hsome) Bool.false_ne_true
      refine .inl ⟨hfilled, ?_⟩
      rw [readSlots, hentry]
      rfl
  | some entry =>
      rw [hentry] at hthere
      obtain ⟨n, hkept, rfl, rfl⟩ := h.record id entry hentry
      obtain ⟨d, hread⟩ := hreads n hkept hentry
      refine .inr ⟨n, d, hkept, rfl, hread, hthere.mp rfl, rfl, ?_⟩
      rw [readSlots, hentry, Option.bind_eq_bind, Option.bind_some, Envelope.unpack?_pack]
      show (Keyed.decodeNode _).toOption.map Stored.node = _
      rw [hread.decodes]
      rfl

theorem KeepsNodes.isSome_readSlots (slot : Slot) :
    (m.readSlots layout filled slot).isSome = (filled slot).isSome := by
  cases slot with
  | node id =>
      obtain ⟨hfilled, hnone⟩ | ⟨n, d, -, -, -, hfilled, -, hsome⟩ := h.readSlots_cases hreads id
      · rw [hnone, hfilled]
      · rw [hsome, hfilled]
        rfl
  | nodeOfKind | edge | incoming | edgeOfKind => rfl

/-- **Where the nodes can be read**, the slots hold them as they are read. -/
theorem KeepsNodes.holdsNodes : m.HoldsNodes layout (m.readSlots layout filled) := by
  -- Only the slots of nodes are read anew. All others hold what they held.
  refine { toLists := ⟨?sound, ?complete, ?separate⟩, nodes := ?nodes }
  case sound =>
    intro key entry hentry
    obtain ⟨slot, v, hv, rfl, hin⟩ := h.sound key entry hentry
    cases slot with
    | node id =>
        obtain ⟨hfilled, -⟩ | ⟨n, d, -, -, hread, -, hthere, hsome⟩ := h.readSlots_cases hreads id
        · rw [hfilled] at hv
          cases hv
        · rw [hthere] at hentry
          exact ⟨_, _, hsome, rfl, _, (Option.some.inj hentry).symm, hread.decodes⟩
    | nodeOfKind | edge | incoming | edgeOfKind =>
        refine ⟨_, v, ?_, rfl, hin⟩
        exact hv
  case complete =>
    intro slot v hv
    cases slot with
    | node id =>
        obtain ⟨-, hnone⟩ | ⟨n, d, -, -, hread, -, hthere, hsome⟩ := h.readSlots_cases hreads id
        · rw [hnone] at hv
          cases hv
        · rw [hsome] at hv
          obtain rfl := Option.some.inj hv
          exact ⟨_, hthere, _, rfl, hread.decodes⟩
    | nodeOfKind | edge | incoming | edgeOfKind => exact h.complete _ v hv
  case separate =>
    intro s t v w hs ht hbytes
    have hfilled : ∀ {slot v}, m.readSlots layout filled slot = some v → ∃ v', filled slot = some v' := by
      intro slot v hslot
      rw [← Option.isSome_iff_exists, ← h.isSome_readSlots hreads, hslot]
      rfl
    obtain ⟨v', hv'⟩ := hfilled hs
    obtain ⟨w', hw'⟩ := hfilled ht
    exact h.separate hv' hw' hbytes
  case nodes =>
    intro id v hv
    obtain ⟨-, hnone⟩ | ⟨n, d, -, hid, hread, -, -, hsome⟩ := h.readSlots_cases hreads id
    · rw [hnone] at hv
      cases hv
    · rw [hsome] at hv
      exact ⟨d, (Option.some.inj hv).symm, hread.id_eq.trans hid⟩

/-- **Where the nodes have the kinds agreed for them**, too, nodes and marks agree. -/
theorem KeepsNodes.isIndexed (hkinds : ∀ n, kept n → n.kind = kindOf n.id) (hmarks : MarksKinds kindOf filled) :
    m.IsIndexed layout kindOf (m.readSlots layout filled) where
  toHoldsNodes := h.holdsNodes hreads
  kind_eq {id d} hd := by
    obtain ⟨-, hnone⟩ | ⟨n, d', hkept, hid, hread, -, -, hsome⟩ := h.readSlots_cases hreads id
    · rw [hnone] at hd
      cases hd
    · rw [hsome] at hd
      obtain rfl : d' = d := Stored.node.inj (Option.some.inj hd)
      rw [hread.kind_eq, hkinds n hkept, hid]
  marked_iff kind id := by
    rw [h.isSome_readSlots hreads, h.isSome_readSlots hreads]
    exact hmarks kind id

end Reads

end ByteMap

/-! ## Counts -/

/-- What counts add up to. -/
def Statistics.total {α : Type} (counts : List (α × Nat)) : Nat :=
  counts.foldr (fun entry sum => entry.2 + sum) 0

/-- The counts of what occurs add up to what is listed under all items together. -/
theorem Statistics.total_occurring {α β : Type} {count : α → Nat} {listed : α → List β}
    (h : ∀ a, count a = (listed a).length) (items : List α) :
    total (occurring count items) = (items.flatMap listed).length := by
  induction items with
  | nil => rfl
  | cons a rest ih =>
      rw [List.flatMap_cons, List.length_append, ← ih, ← h]
      by_cases hzero : count a = 0 <;> simp [occurring, total, hzero]

/-! ## Stores that come about by some operations -/

/-- What an operation saves stays for ever, and the nodes among it can be read again. -/
structure Store.Operation.NodesLast (op : Store.Operation) : Prop where
  nodes : ∀ n ∈ op.savedNodes, ∃ d, n.ReadsAs d
  life : ∀ g options d, op = .saveGraph g options → options.life ≠ .span d

/-- The nodes that an operation saves have the kinds that are agreed. -/
def Store.Operation.KeepsKinds (kindOf : String → NodeKind) (op : Store.Operation) : Prop :=
  ∀ n ∈ op.savedNodes, n.kind = kindOf n.id

namespace Keyed

/-- A keyed store that can come about by allowed operations where nothing is to expire. -/
inductive ReachableBy (allowed : Store.Operation → Prop) : Keyed → Prop where
  | fresh {settings : KeyedSettings} (stays : settings.defaultLife = none) (now : UInt64) :
      ReachableBy allowed (.ofEntries settings ∅ now)
  | perform {k k' : Keyed} (h : ReachableBy allowed k) {op : Store.Operation} (hop : allowed op)
      (hrun : (Store.keyed k).perform op = .ok (.keyed k')) : ReachableBy allowed k'
  | enterScope {k : Keyed} (h : ReachableBy allowed k) : ReachableBy allowed k.enterScope
  /-- A transaction ends inside another, or it ends without effect. -/
  | leaveScope {k : Keyed} (h : ReachableBy allowed k) : ReachableBy allowed k.leaveScope
  /-- An outermost transaction ends well. -/
  | commit {k : Keyed} (h : ReachableBy allowed k) (outermost : k.depth = 1) :
      ReachableBy allowed k.commit
  | atMoment {k : Keyed} (h : ReachableBy allowed k) (now : UInt64) :
      ReachableBy allowed { k with now := now }

/-- The writes keep what holds of the entries of a store. -/
def Preserves (holds : ByteMap → Prop) (writes : List ByteWrite) : Prop :=
  ∀ m, holds m → holds (m.writeAll writes)

variable {holds : ByteMap → Prop} {allowed : Store.Operation → Prop} {k : Keyed}

theorem Preserves.append {first next : List ByteWrite} (hfirst : Preserves holds first)
    (hnext : Preserves holds next) : Preserves holds (first ++ next) := by
  intro m hm
  rw [ByteMap.writeAll_append]
  exact hnext _ (hfirst m hm)

theorem preserves_flatMap {α : Type} {f : α → List ByteWrite} {items : List α}
    (h : ∀ a ∈ items, Preserves holds (f a)) : Preserves holds (items.flatMap f) := by
  induction items with
  | nil => exact fun _ hm => hm
  | cons a rest ih =>
      rw [List.flatMap_cons]
      exact (h a List.mem_cons_self).append (ih fun b hb => h b (List.mem_cons_of_mem _ hb))

/-- **An invariant of the entries.** It holds of no entries. Whatever is submitted on entries of which it
holds keeps it, also on other entries, since they may be others when a transaction ends. -/
theorem ReachableBy.entries_induction (holds : KeyLayout → ByteMap → Prop)
    (hempty : ∀ layout, holds layout ∅)
    (hstep : ∀ {k : Keyed} {op : Store.Operation} {writes : List ByteWrite},
      k.settings.defaultLife = none → holds k.layout k.entries → allowed op →
        k.submission op = .ok writes → Preserves (holds k.layout) writes)
    (h : k.ReachableBy allowed) : holds k.layout k.entries := by
  suffices hall : k.settings.defaultLife = none ∧ k.Upholds holds fun layout => Preserves (holds layout) from
    hall.2.entries
  have hsustains : Sustains holds fun layout => Preserves (holds layout) :=
    ⟨fun _ _ hm => hm, Preserves.append, fun hm hwrites => hwrites _ hm⟩
  induction h with
  | fresh stays now => exact ⟨stays, .ofEntries hsustains (hempty _) now⟩
  | perform _ hop hrun ih =>
      obtain ⟨hstays, hupholds⟩ := ih
      obtain ⟨writes, hwrites, ⟨⟩⟩ := exists_submit_of_perform hrun
      refine ⟨?_, hupholds.submit hsustains (hstep hstays hupholds.entries hop hwrites)⟩
      rwa [settings_submit]
  | enterScope _ ih => exact ⟨ih.1, ih.2.entries, ih.2.collected⟩
  | leaveScope _ ih => exact ⟨ih.1, ih.2.leaveScope hsustains⟩
  | commit _ _ ih => exact ⟨ih.1, ih.2.commit hsustains⟩
  | atMoment _ now ih => exact ⟨ih.1, ih.2.entries, ih.2.collected⟩

/-! ## What operations do to nodes and marks -/

variable {kindOf : String → NodeKind}

/-- The key of a node is deleted with the node, and so is that of its mark. -/
theorem mem_slotsOf_keys (layout : KeyLayout) (ids : List String) (keys : List EdgeKey) (id : String) :
    ((Slot.node id).bytes layout ∈ (slotsOf ids keys).map (·.bytes layout) ↔ id ∈ ids) ∧
      ∀ kind, (Slot.nodeOfKind kind id).bytes layout ∈ (slotsOf ids keys).map (·.bytes layout) ↔
        id ∈ ids := by
  have hall : ∀ kind : NodeKind, kind ∈ NodeKind.all := fun kind => by cases kind <;> decide
  refine ⟨?_, fun kind => ?_⟩
  · have hown : ∀ s : Slot, s.bytes layout = (Slot.node id).bytes layout ↔ s = .node id :=
      fun _ => Slot.node_bytes_eq_iff
    simp [hown, slotsOf, nodeSlots, edgeSlots]
  · have hown : ∀ s : Slot, s.bytes layout = (Slot.nodeOfKind kind id).bytes layout ↔
        s = .nodeOfKind kind id := fun _ => Slot.nodeOfKind_bytes_eq_iff
    simp [hown, slotsOf, nodeSlots, edgeSlots, hall]

/-- **Every store that can come about** keeps the nodes that were saved, and their marks too, if each of them has
the kind agreed for its identifier. -/
theorem ReachableBy.keepsNodes {allowed : Store.Operation → Prop} {kept : Node → Prop}
    (hnodes : ∀ op, allowed op → ∀ n ∈ op.savedNodes, kept n)
    (hlife : ∀ op g options d, allowed op → op = .saveGraph g options → options.life ≠ .span d)
    (h : k.ReachableBy allowed) :
    ∃ filled, k.entries.KeepsNodes k.layout kept filled ∧
      ∀ kindOf, (∀ n, kept n → n.kind = kindOf n.id) → ByteMap.MarksKinds kindOf filled := by
  refine h.entries_induction
    (fun layout m => ∃ filled, m.KeepsNodes layout kept filled ∧
      ∀ kindOf, (∀ n, kept n → n.kind = kindOf n.id) → ByteMap.MarksKinds kindOf filled)
    (fun layout => ⟨_, ByteMap.keepsNodes_empty layout kept, fun kindOf _ => ByteMap.marksKinds_none kindOf⟩) ?_
  rintro k op writes hstays ⟨base, hbase, hbaseMarks⟩ hop hwrites
  obtain rfl | ⟨ids, keys, rfl⟩ | rfl :=
    submission_cases_of_lasting hstays (fun g options d => hlife op g options d hop) hwrites
  · refine (preserves_flatMap fun n hn => ?_).append (preserves_flatMap fun e _ => ?_)
    · rintro m ⟨filled, hm, hmarks⟩
      obtain ⟨filled', hm', hmarks'⟩ := hm.putNode (hnodes op hop n hn)
      exact ⟨filled', hm', fun kindOf hkinds => hmarks' kindOf (hkinds n (hnodes op hop n hn)) (hmarks kindOf hkinds)⟩
    · rintro m ⟨filled, hm, hmarks⟩
      obtain ⟨filled', hm', hmarks'⟩ := hm.putEdge e
      exact ⟨filled', hm', fun kindOf hkinds => hmarks' kindOf (hmarks kindOf hkinds)⟩
  · rintro m ⟨filled, hm, hmarks⟩
    rw [slotDeletes_eq]
    refine ⟨_, hm.deleteAll _, fun kindOf hkinds => (hmarks kindOf hkinds).withoutKeys fun id => ?_⟩
    have hkeys := mem_slotsOf_keys k.layout ids keys id
    rw [hkeys.1, hkeys.2]
  · rintro m ⟨filled, hm, hmarks⟩
    rw [allDeletes_eq_keysUnder]
    refine ⟨_, hm.deleteAll _, fun kindOf hkinds => (hmarks kindOf hkinds).withoutKeys fun id => ?_⟩
    -- The keys are those of the store before the transaction, in which nodes and marks agree as well.
    exact hbase.toLists.mem_allKeys_iff (hbaseMarks kindOf hkinds) id

/-- **Every node that is stored** can be read. -/
theorem ReachableBy.holdsNodes (h : k.ReachableBy Store.Operation.NodesLast) :
    ∃ filled, k.entries.HoldsNodes k.layout filled := by
  obtain ⟨filled, hkeeps, -⟩ := h.keepsNodes (fun _ hop => hop.nodes) fun _ _ _ _ hop => hop.life _ _ _
  exact ⟨_, hkeeps.holdsNodes fun _ hread _ => hread⟩

/-- **Marks agree with nodes** where each identifier has one kind. -/
theorem ReachableBy.isIndexed
    (h : k.ReachableBy fun op => op.NodesLast ∧ op.KeepsKinds kindOf) :
    ∃ filled, k.entries.IsIndexed k.layout kindOf filled := by
  let kept (n : Node) : Prop := (∃ d, n.ReadsAs d) ∧ n.kind = kindOf n.id
  have hkinds : ∀ n, kept n → n.kind = kindOf n.id := fun _ hn => hn.2
  have hnodes : ∀ op : Store.Operation, op.NodesLast ∧ op.KeepsKinds kindOf → ∀ n ∈ op.savedNodes, kept n :=
    fun _ hop n hn => ⟨hop.1.nodes n hn, hop.2 n hn⟩
  obtain ⟨filled, hkeeps, hmarks⟩ := h.keepsNodes hnodes fun _ _ _ _ hop => hop.1.life _ _ _
  exact ⟨_, hkeeps.isIndexed (fun _ hn _ => hn.1) hkinds (hmarks kindOf hkinds)⟩

/-! ## Listing by kind -/

/-- Under each kind stand the marks of the stored nodes of this kind, and no others. -/
def MarksAgree (k : Keyed) : Prop :=
  ∀ kind id, (k.live? (k.layout.nodeOfKind kind id)).isSome = true ↔
    ∃ n, k.node? id = .ok (some n) ∧ n.kind = kind

/-- Listing the nodes of a kind gives the stored nodes of this kind, each once, and counting them gives
their number. Listing all nodes gives every stored node once, and the counts of the kinds add up to the
count of all. -/
structure ListsKinds (k : Keyed) : Prop where
  ofKind : ∀ kind, ∃ nodes, k.findNodes (some kind) [] none 0 = .ok nodes ∧
    Enumerates (fun n => k.node? n.id = .ok (some n) ∧ n.kind = kind) nodes ∧
      k.nodeCount (some kind) = nodes.length
  all : ∃ nodes, k.findNodes none [] none 0 = .ok nodes ∧
    Enumerates (fun n => k.node? n.id = .ok (some n)) nodes ∧ k.nodeCount none = nodes.length
  total : Statistics.total k.statistics.nodesByKind = k.nodeCount none

open ByteMap in
/-- The node that fills its slot. -/
def nodeIn (filled : Slot → Option Stored) (id : String) : Option Node :=
  match filled (.node id) with
  | some (.node n) => some n
  | _ => none

variable {filled : Slot → Option Stored}

theorem nodeIn_spec (h : k.entries.HoldsNodes k.layout filled) (id : String) :
    filled (.node id) = (nodeIn filled id).map .node ∧ ∀ n, nodeIn filled id = some n → n.id = id := by
  cases hv : filled (.node id) with
  | none => simp [nodeIn, hv]
  | some v =>
      obtain ⟨n, rfl, hid⟩ := h.nodes hv
      refine ⟨by simp [nodeIn, hv], fun d hd => ?_⟩
      obtain rfl : n = d := by simpa [nodeIn, hv] using hd
      exact hid

theorem node?_eq_nodeIn (h : k.entries.HoldsNodes k.layout filled) (id : String) :
    k.node? id = .ok (nodeIn filled id) := node?_eq h.toLists (nodeIn_spec h id).1

/-- A node is stored if it fills its slot. -/
theorem stored_iff (h : k.entries.HoldsNodes k.layout filled) {id : String} {n : Node} :
    k.node? id = .ok (some n) ↔ nodeIn filled id = some n := by
  rw [node?_eq_nodeIn h]
  exact ⟨Except.ok.inj, congrArg Except.ok⟩

theorem marksAgree_iff (h : k.entries.HoldsNodes k.layout filled) :
    k.MarksAgree ↔ ∀ kind id, (filled (.nodeOfKind kind id)).isSome = true ↔
      ∃ n, nodeIn filled id = some n ∧ n.kind = kind := by
  have hlive : ∀ kind id, (k.live? (k.layout.nodeOfKind kind id)).isSome = true ↔
      (filled (.nodeOfKind kind id)).isSome = true := fun kind id => by
    constructor
    · intro hsome
      cases hentry : k.entries[k.layout.nodeOfKind kind id]? with
      | none => simp [live?, hentry] at hsome
      | some entry =>
          obtain ⟨slot, v, hv, hbytes, -⟩ := h.sound _ entry hentry
          rw [← Slot.nodeOfKind_bytes_eq_iff.mp hbytes, hv]
          rfl
    · intro hsome
      obtain ⟨v, hv⟩ := Option.isSome_iff_exists.mp hsome
      have hvalue : k.live? (k.layout.nodeOfKind kind id) = some _ := (live?_eq h.toLists hv).1
      rw [hvalue]
      rfl
  unfold MarksAgree
  simp only [hlive, stored_iff h]

/-- **What is listed** are the nodes of the identifiers that have a mark, each once. -/
theorem findNodes_all (h : k.entries.HoldsNodes k.layout filled) (kind : Option NodeKind)
    {p : String → Prop}
    (hids : Enumerates p ((kind.elim NodeKind.all List.singleton).flatMap k.idsOfKind)) :
    k.findNodes kind [] none 0 = .ok ((k.sortedIds kind).filterMap (nodeIn filled)) ∧
      Enumerates (fun n => k.node? n.id = .ok (some n) ∧ p n.id)
        ((k.sortedIds kind).filterMap (nodeIn filled)) := by
  have hpage : ∀ nodes, pageOf [] none 0 nodes = nodes := fun nodes => by
    simp [pageOf, Filter.accepts, Filter.acceptsProperties]
  have hperm := k.sortedIds_perm kind
  refine ⟨?_, (hperm.nodup_iff.mpr hids.nodup).filterMap fun a b n ha hb => ?_, fun n => ?_⟩
  · rw [findNodes_eq h.toLists (fun id => (nodeIn_spec h id).1), hpage]
  · rw [← (nodeIn_spec h a).2 n ha, (nodeIn_spec h b).2 n hb]
  · rw [List.mem_filterMap, stored_iff h]
    constructor
    · rintro ⟨id, hid, hn⟩
      obtain rfl := (nodeIn_spec h id).2 n hn
      exact ⟨hn, (hids.mem_iff _).mp (hperm.mem_iff.mp hid)⟩
    · rintro ⟨hn, hp⟩
      exact ⟨n.id, hperm.mem_iff.mpr ((hids.mem_iff _).mpr hp), hn⟩

/-- No identifier is passed over if each of them has a node. -/
theorem length_listed (kind : Option NodeKind)
    (hnode : ∀ id ∈ (kind.elim NodeKind.all List.singleton).flatMap k.idsOfKind,
      (nodeIn filled id).isSome = true) :
    ((k.sortedIds kind).filterMap (nodeIn filled)).length =
      ((kind.elim NodeKind.all List.singleton).flatMap k.idsOfKind).length := by
  have hperm := k.sortedIds_perm kind
  rw [← hperm.length_eq]
  exact List.filterMap_length_eq_length.mpr fun id hid => hnode id (hperm.mem_iff.mp hid)

theorem ids_some (k : Keyed) (kind : NodeKind) :
    ((some kind).elim NodeKind.all List.singleton).flatMap k.idsOfKind = k.idsOfKind kind := by
  show [kind].flatMap k.idsOfKind = _
  rw [List.flatMap_singleton]

/-- Where marks agree with nodes, the identifiers under a kind are those of the nodes of the kind, and so are
those under all kinds together. -/
theorem MarksAgree.enumerates_ids (hagree : k.MarksAgree) (h : k.entries.HoldsNodes k.layout filled)
    (kind : Option NodeKind) :
    Enumerates (fun id => ∃ n, nodeIn filled id = some n ∧ kind.all (fun k => n.kind = k) = true)
      ((kind.elim NodeKind.all List.singleton).flatMap k.idsOfKind) := by
  rw [marksAgree_iff h] at hagree
  have hkinds : ∀ kind, Enumerates (fun id => ∃ n, nodeIn filled id = some n ∧ n.kind = kind)
      (k.idsOfKind kind) := fun kind =>
    (idsOfKind_eq h.toLists kind).1.congr fun id => hagree kind id
  cases kind with
  | some kind =>
      rw [ids_some]
      exact (hkinds kind).congr fun id => by simp
  | none =>
      have hone : ∀ {a b : NodeKind} {id : String}, (∃ n, nodeIn filled id = some n ∧ n.kind = a) →
          (∃ n, nodeIn filled id = some n ∧ n.kind = b) → a = b := by
        rintro a b id ⟨n, hn, rfl⟩ ⟨m, hm, rfl⟩
        rw [Option.some.inj (hn.symm.trans hm)]
      exact (enumerates_flatMap_kinds hkinds hone).congr fun id => by simp

/-- Where marks agree with nodes, the store lists its nodes by kind. -/
theorem MarksAgree.listsKinds (hagree : k.MarksAgree) (h : k.entries.HoldsNodes k.layout filled) :
    k.ListsKinds := by
  have hids := hagree.enumerates_ids h
  -- Each of the identifiers has a node.
  have hlength : ∀ kind, ((k.sortedIds kind).filterMap (nodeIn filled)).length =
      ((kind.elim NodeKind.all List.singleton).flatMap k.idsOfKind).length := by
    intro kind
    apply length_listed
    intro id hid
    obtain ⟨n, hn, -⟩ := ((hids kind).mem_iff id).mp hid
    rw [hn]
    rfl
  have hcount : k.nodeCount none = (NodeKind.all.flatMap k.idsOfKind).length := by
    obtain ⟨ids, hall, hcount⟩ := nodeCount_eq h.toLists
    rw [hcount]
    refine hall.length_eq (hids none) fun id => ?_
    rw [(nodeIn_spec h id).1, isSome_map, Option.isSome_iff_exists]
    simp
  refine ⟨fun kind => ?_, ?_, ?_⟩
  · obtain ⟨hfound, hlisted⟩ := findNodes_all h (some kind) (hids (some kind))
    refine ⟨_, hfound, hlisted.congr fun n => and_congr_right fun hn => ?_, ?_⟩
    · rw [stored_iff h] at hn
      simp [hn]
    · rw [hlength, ids_some, (idsOfKind_eq h.toLists kind).2]
  · obtain ⟨hfound, hlisted⟩ := findNodes_all h none (hids none)
    refine ⟨_, hfound, hlisted.congr fun n => and_iff_left_of_imp fun hn => ?_, ?_⟩
    · exact ⟨n, (stored_iff h).mp hn, rfl⟩
    · rw [hlength, hcount]
      rfl
  · rw [hcount]
    exact Statistics.total_occurring (fun kind => (idsOfKind_eq h.toLists kind).2) NodeKind.all

/-- Where a store lists its nodes by kind, marks agree with nodes: each mark was counted, so that each
has a node. -/
theorem ListsKinds.marksAgree (hlists : k.ListsKinds) (h : k.entries.HoldsNodes k.layout filled) :
    k.MarksAgree := by
  rw [marksAgree_iff h]
  intro kind id
  obtain ⟨nodes, hfound, hnodes, hcount⟩ := hlists.ofKind kind
  have hmarks := (idsOfKind_eq h.toLists kind).1
  have hids : Enumerates _ (((some kind).elim NodeKind.all List.singleton).flatMap k.idsOfKind) :=
    (ids_some k kind).symm ▸ hmarks
  obtain rfl : _ = nodes := Except.ok.inj ((findNodes_all h (some kind) hids).1.symm.trans hfound)
  have hperm := k.sortedIds_perm (some kind)
  rw [ids_some] at hperm
  have hmem : ∀ id, id ∈ k.sortedIds (some kind) ↔ (filled (.nodeOfKind kind id)).isSome = true :=
    fun id => hperm.mem_iff.trans (hmarks.mem_iff id)
  constructor
  · intro hmark
    -- As many nodes are listed as marks are counted, so none of the identifiers is left out.
    have hlength : ((k.sortedIds (some kind)).filterMap (nodeIn filled)).length =
        (k.sortedIds (some kind)).length := by
      rw [← hcount, (idsOfKind_eq h.toLists kind).2, hperm.length_eq]
    have hsome := List.filterMap_length_eq_length.mp hlength id ((hmem id).mpr hmark)
    obtain ⟨n, hn⟩ := Option.isSome_iff_exists.mp hsome
    have hlisted := (hnodes.mem_iff n).mp (List.mem_filterMap.mpr ⟨id, (hmem id).mpr hmark, hn⟩)
    exact ⟨n, hn, hlisted.2⟩
  · rintro ⟨n, hn, rfl⟩
    obtain rfl := (nodeIn_spec h id).2 n hn
    have hlisted := (hnodes.mem_iff n).mpr ⟨(stored_iff h).mpr hn, rfl⟩
    obtain ⟨id, hid, hn'⟩ := List.mem_filterMap.mp hlisted
    obtain rfl := (nodeIn_spec h id).2 n hn'
    exact (hmem _).mp hid

/-- **Marks agree** in a store where each identifier has one kind. -/
theorem marksAgree_of_isIndexed (h : k.entries.IsIndexed k.layout kindOf filled) : k.MarksAgree := by
  rw [marksAgree_iff h.toHoldsNodes]
  intro kind id
  have hspec := (nodeIn_spec h.toHoldsNodes id).1
  have hkind : ∀ n, nodeIn filled id = some n → n.kind = kindOf id := fun n hn =>
    h.kind_eq (by rw [hspec, hn]; rfl)
  rw [h.marked_iff, hspec, isSome_map, Option.isSome_iff_exists]
  constructor
  · rintro ⟨⟨n, hn⟩, rfl⟩
    exact ⟨n, hn, hkind n hn⟩
  · rintro ⟨n, hn, rfl⟩
    exact ⟨⟨n, hn⟩, hkind n hn⟩

theorem ReachableBy.mono {allowed allowed' : Store.Operation → Prop} (himp : ∀ op, allowed op → allowed' op)
    (h : k.ReachableBy allowed) : k.ReachableBy allowed' := by
  induction h with
  | fresh stays now => exact .fresh stays now
  | perform _ hop hrun ih => exact ih.perform (himp _ hop) hrun
  | enterScope _ ih => exact ih.enterScope
  | leaveScope _ ih => exact ih.leaveScope
  | commit _ outermost ih => exact ih.commit outermost
  | atMoment _ now ih => exact ih.atMoment now

/-- **Listing by kind.** A store that can come about lists its nodes by kind just if its marks agree with
its nodes. It does so if it has come about without saving an identifier under two kinds. -/
theorem ReachableBy.listsKinds_iff_marksAgree (h : k.ReachableBy Store.Operation.NodesLast) :
    (k.ListsKinds ↔ k.MarksAgree) ∧
      ∀ kindOf, (k.ReachableBy fun op => op.NodesLast ∧ op.KeepsKinds kindOf) → k.ListsKinds := by
  obtain ⟨filled, hfilled⟩ := h.holdsNodes
  refine ⟨⟨fun hlists => hlists.marksAgree hfilled, fun hagree => hagree.listsKinds hfilled⟩, ?_⟩
  intro kindOf hkinds
  obtain ⟨indexed, hindexed⟩ := hkinds.isIndexed
  exact (marksAgree_of_isIndexed hindexed).listsKinds hindexed.toHoldsNodes

/-- A node is saved twice under one kind. -/
theorem ReachableBy.listsKinds_iff_marksAgree_savedAgain :
    let n := Node.ofCore "x" (.variable "x" "x")
    let k := ((ofEntries { KeyedSettings.standard with defaultLife := none } ∅ 0).saveNode n).saveNode n
    k.ReachableBy Store.Operation.NodesLast ∧
      (k.ReachableBy fun op => op.NodesLast ∧ op.KeepsKinds fun _ => .variable) ∧
      (k.ListsKinds ↔ k.MarksAgree) ∧ k.ListsKinds := by
  intro n k
  have hread : n.ReadsAs n.reread := Node.IsApart.readsAs (fun _ _ => rfl) (by decide +kernel)
  have hop : (Store.Operation.saveNode n).NodesLast ∧
      (Store.Operation.saveNode n).KeepsKinds fun _ => .variable := by
    refine ⟨⟨fun m hm => ?_, fun _ _ _ h => nomatch h⟩, fun m hm => ?_⟩
    · exact List.mem_singleton.mp hm ▸ ⟨_, hread⟩
    · exact List.mem_singleton.mp hm ▸ rfl
  have hkinds : k.ReachableBy fun op => op.NodesLast ∧ op.KeepsKinds fun _ => .variable :=
    .perform (.perform (.fresh rfl 0) hop rfl) hop rfl
  have hlast : k.ReachableBy Store.Operation.NodesLast := hkinds.mono fun _ h => h.1
  obtain ⟨hiff, hlists⟩ := hlast.listsKinds_iff_marksAgree
  exact ⟨hlast, hkinds, hiff, hlists _ hkinds⟩

/-- **The mark under the old kind stays** when a node is saved again under another kind. The node is
listed and counted under both, and twice among all nodes. -/
theorem saveNode_keeps_old_mark :
    let k := ((ofEntries { KeyedSettings.standard with defaultLife := none } ∅ 0).saveNode
      (.ofCore "x" (.variable "x" "x"))).saveNode (.ofCore "x" (.module "x" "x"))
    let listed (kind : Option NodeKind) := (k.findNodes kind [] none 0).toOption.map (List.map Node.kind)
    k.ReachableBy Store.Operation.NodesLast ∧ ¬k.ListsKinds ∧ listed (some .variable) = some [.module] ∧
      k.nodeCount (some .variable) = 1 ∧ listed none = some [.module, .module] ∧ k.nodeCount none = 1 ∧
      k.statistics.nodesByKind = [(.module, 1), (.variable, 1)] := by
  intro k listed
  have hop : ∀ core : NodeCore, (Node.ofCore "x" core).Fits →
      (Store.Operation.saveNode (.ofCore "x" core)).NodesLast := fun core hfits => by
    refine ⟨fun m hm => ?_, fun _ _ _ h => nomatch h⟩
    exact List.mem_singleton.mp hm ▸ ⟨_, Node.IsApart.readsAs (fun _ _ => rfl) hfits⟩
  have hreach : k.ReachableBy Store.Operation.NodesLast :=
    .perform (.perform (.fresh rfl 0) (hop _ (by decide +kernel)) rfl) (hop _ (by decide +kernel)) rfl
  have hcounts : k.nodeCount (some .variable) = 1 ∧ k.nodeCount none = 1 ∧
      k.statistics.nodesByKind = [(.module, 1), (.variable, 1)] := by
    simp only [k, nodeCount, statistics, liveUnder, ByteMap.scan_eq_filter]
    decide +kernel
  have hids : ∀ kind, k.idsOfKind kind = if kind = .variable ∨ kind = .module then ["x"] else [] := by
    intro kind
    simp only [k, idsOfKind, liveUnder, ByteMap.scan_eq_filter]
    cases kind <;> decide +kernel
  have hlisted : listed (some .variable) = some [.module] ∧ listed none = some [.module, .module] := by
    have hsorted : k.sortedIds (some .variable) = ["x"] ∧ k.sortedIds none = ["x", "x"] := by
      simp [sortedIds, hids, NodeKind.all, List.singleton, List.mergeSort]
    simp only [listed, findNodes_eq_mapM, hsorted]
    decide +kernel
  -- were the kinds listed, the counts by kind would sum to that of all nodes
  refine ⟨hreach, fun hlists => ?_, hlisted.1, hcounts.1, hlisted.2, hcounts.2.1, hcounts.2.2⟩
  have htotal := hlists.total
  rw [hcounts.2.1, hcounts.2.2] at htotal
  exact absurd htotal (by decide)

end Keyed

end ProgramGraph
