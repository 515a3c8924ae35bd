import ProgramGraph.Proofs.Store.Confinement

set_option autoImplicit false

/-! # Records under their keys

Under the key of a node a keyed store has a node that was saved with this identifier, and under the key of
an edge an edge whose key this is (`ByteMap.IsFiled`). For that it does not matter when an entry expires,
which identifiers hold colons or on which entries a transaction is made in the end: a change puts a record
under its own key or deletes, and any such change keeps all entries in their places.

`Keyed.CanArise` is every keyed store that operations, transactions and the passing of time lead to. In such
a store a record that can be read is the one that its key calls for (`Keyed.CanArise.decodesInPlace`).
-/

namespace ProgramGraph

open ProgramGraph.Text

/-! ## Entries in their places -/

/-- What saving puts under a key. Where no record is read from, anything may stand. -/
inductive IsRecord (layout : KeyLayout) : Bytes → Bytes → Prop where
  | node (n : Node) (hfits : n.Fits) (expiry : UInt64) :
      IsRecord layout ((Slot.node n.id).bytes layout) (Envelope.pack expiry (MsgPack.encode n.toWire))
  | edge (e : Edge) (hfits : e.Fits) (expiry : UInt64) :
      IsRecord layout ((Slot.edge e.key).bytes layout) (Envelope.pack expiry (MsgPack.encode e.toWire))
  | beside {slot : Slot} (hnode : ∀ id, slot ≠ .node id) (hedge : ∀ key, slot ≠ .edge key) (entry : Bytes) :
      IsRecord layout (slot.bytes layout) entry

/-- The change puts a record under its key, or it deletes. -/
def ByteWrite.Files (layout : KeyLayout) : ByteWrite → Prop
  | .put key entry => IsRecord layout key entry
  | .delete _ => True

namespace ByteMap

variable {m : ByteMap} {layout : KeyLayout}

/-- Every entry is a record under its key. -/
def IsFiled (m : ByteMap) (layout : KeyLayout) : Prop :=
  ∀ key entry, m[key]? = some entry → IsRecord layout key entry

theorem isFiled_empty (layout : KeyLayout) : IsFiled ∅ layout := by
  intro key entry h
  simp at h

/-- **One change** keeps the entries in their places. -/
theorem IsFiled.write (h : m.IsFiled layout) {w : ByteWrite} (hw : w.Files layout) :
    (m.write w).IsFiled layout := by
  intro key entry hentry
  rw [getElem?_write] at hentry
  by_cases hkey : key = w.key
  · rw [if_pos hkey] at hentry
    cases w with
    | put written value =>
        obtain rfl : value = entry := Option.some.inj hentry
        rw [hkey]
        exact hw
    | delete written => cases hentry
  · rw [if_neg hkey] at hentry
    exact h key entry hentry

/-- Many changes do so too. -/
theorem IsFiled.writeAll (h : m.IsFiled layout) {writes : List ByteWrite} (hw : ∀ w ∈ writes, w.Files layout) :
    (m.writeAll writes).IsFiled layout := by
  induction writes generalizing m with
  | nil => exact h
  | cons w rest ih =>
      apply ih (h.write (hw w List.mem_cons_self))
      intro v hv
      exact hw v (List.mem_cons_of_mem w hv)

end ByteMap

/-! ## What operations submit -/

/-- The binary encoding has forms for what the operation saves. -/
structure Store.Operation.Fits (op : Store.Operation) : Prop where
  nodes : ∀ n ∈ op.savedNodes, n.Fits
  edges : ∀ e ∈ op.savedEdges, e.Fits

namespace Keyed

variable {k : Keyed} {layout : KeyLayout} {expiry : UInt64} {w : ByteWrite}

theorem files_of_mem_nodeWrites {n : Node} (hfits : n.Fits) (hw : w ∈ nodeWrites layout expiry n) :
    w.Files layout := by
  simp only [nodeWrites, List.mem_cons, List.not_mem_nil, or_false] at hw
  rcases hw with rfl | rfl
  · exact .node n hfits expiry
  · exact @IsRecord.beside layout (.nodeOfKind n.kind n.id) (by simp) (by simp) _

theorem files_of_mem_edgeWrites {e : Edge} (hfits : e.Fits) (hw : w ∈ edgeWrites layout expiry e) :
    w.Files layout := by
  simp only [edgeWrites, List.mem_cons, List.not_mem_nil, or_false] at hw
  rcases hw with rfl | rfl | rfl
  · exact .edge e hfits expiry
  · exact @IsRecord.beside layout (.incoming e.key) (by simp) (by simp) _
  · exact @IsRecord.beside layout (.edgeOfKind e.key) (by simp) (by simp) _

theorem files_of_mem_slotDeletes {slots : List Slot} (hw : w ∈ slotDeletes layout slots) : w.Files layout := by
  obtain ⟨slot, -, rfl⟩ := List.mem_map.mp hw
  trivial

/-- **An operation** submits records under their keys, and deletions. -/
theorem files_of_submission {op : Store.Operation} (hop : op.Fits) {writes : List ByteWrite}
    (h : k.submission op = .ok writes) : ∀ w ∈ writes, w.Files k.layout := by
  intro w hw
  obtain rfl | ⟨ids, keys, rfl⟩ | rfl := submission_cases h
  · rcases List.mem_append.mp hw with hw | hw
    · obtain ⟨n, hn, hw⟩ := List.mem_flatMap.mp hw
      exact files_of_mem_nodeWrites (hop.nodes n hn) hw
    · obtain ⟨e, he, hw⟩ := List.mem_flatMap.mp hw
      exact files_of_mem_edgeWrites (hop.edges e he) hw
  · exact files_of_mem_slotDeletes hw
  · obtain ⟨entry, -, rfl⟩ := List.mem_map.mp hw
    trivial

/-- Records under their keys, and deletions, keep entries in their places. -/
theorem sustains_isFiled :
    Sustains (fun layout m => m.IsFiled layout) fun layout writes => ∀ w ∈ writes, w.Files layout where
  nil _ _ hw := absurd hw List.not_mem_nil
  append hfirst hnext w hw := (List.mem_append.mp hw).elim (hfirst w) (hnext w)
  writeAll hm hwrites := hm.writeAll hwrites

/-! ## Stores that can arise -/

/-- A keyed store that can come about. What it saves may expire. -/
inductive CanArise : Keyed → Prop where
  | fresh (settings : KeyedSettings) (now : UInt64) : CanArise (.ofEntries settings ∅ now)
  | perform {k k' : Keyed} (h : CanArise k) {op : Store.Operation} (hop : op.Fits)
      (hrun : (Store.keyed k).perform op = .ok (.keyed k')) : CanArise k'
  | enterScope {k : Keyed} (h : CanArise k) : CanArise k.enterScope
  /-- A transaction ends inside another, or it ends without effect. -/
  | leaveScope {k : Keyed} (h : CanArise k) : CanArise k.leaveScope
  /-- An outermost transaction ends well. -/
  | commit {k : Keyed} (h : CanArise k) (outermost : k.depth = 1) : CanArise k.commit
  | atMoment {k : Keyed} (h : CanArise k) (now : UInt64) : CanArise { k with now := now }
  /-- The entries that a store leaves are opened again, with keys that start as before. -/
  | reopen {k : Keyed} (h : CanArise k) {settings : KeyedSettings}
      (hroot : settings.keyRoot = k.settings.keyRoot) (now : UInt64) :
      CanArise (.ofEntries settings k.entries now)

namespace CanArise

/-- Nodes are saved one after the other. -/
theorem saveNodes (h : k.CanArise) {nodes : List Node} (hfits : ∀ n ∈ nodes, n.Fits) :
    (nodes.foldl saveNode k).CanArise := by
  refine List.foldlRecOn nodes saveNode h fun k hk n hn => ?_
  have hop : (Store.Operation.saveNode n).Fits :=
    ⟨fun m hm => List.mem_singleton.mp hm ▸ hfits n hn, fun e he => absurd he List.not_mem_nil⟩
  exact hk.perform hop rfl

/-- Edges are saved one after the other. -/
theorem saveEdges (h : k.CanArise) {edges : List Edge} (hfits : ∀ e ∈ edges, e.Fits) :
    (edges.foldl saveEdge k).CanArise := by
  refine List.foldlRecOn edges saveEdge h fun k hk e he => ?_
  have hop : (Store.Operation.saveEdge e).Fits :=
    ⟨fun n hn => absurd hn List.not_mem_nil, fun d hd => List.mem_singleton.mp hd ▸ hfits e he⟩
  exact hk.perform hop rfl

/-- **Every store that can come about** has its entries in their places, and what it has collected keeps
them there. -/
theorem isFiled (h : k.CanArise) :
    k.Upholds (fun layout m => m.IsFiled layout) fun layout writes => ∀ w ∈ writes, w.Files layout := by
  induction h with
  | fresh settings now => exact .ofEntries sustains_isFiled (ByteMap.isFiled_empty _) now
  | perform _ hop hrun ih =>
      obtain ⟨writes, hwrites, ⟨⟩⟩ := exists_submit_of_perform hrun
      exact ih.submit sustains_isFiled (files_of_submission hop hwrites)
  | enterScope _ ih => exact ⟨ih.entries, ih.collected⟩
  | leaveScope _ ih => exact ih.leaveScope sustains_isFiled
  | commit _ _ ih => exact ih.commit sustains_isFiled
  | atMoment _ now ih => exact ⟨ih.entries, ih.collected⟩
  | @reopen k _ settings hroot now ih =>
      have hlayout : k.layout = ⟨settings.keyRoot⟩ := congrArg KeyLayout.mk hroot.symm
      exact .ofEntries sustains_isFiled (hlayout ▸ ih.entries) now

end CanArise

/-! ## Reading -/

theorem unpack?_pack_eq_some {now : UInt64} {payload found : Bytes}
    (h : Envelope.unpack? now (Envelope.pack expiry payload) = some found) : found = payload := by
  rw [Envelope.unpack?_pack_eq, Option.ite_none_left_eq_some, Option.some.injEq] at h
  exact h.2.symm

theorem mem_liveUnder {start key payload : Bytes} :
    (key, payload) ∈ k.liveUnder start ↔ start <+: key ∧ k.live? key = some payload := by
  simp only [liveUnder, ByteMap.scan_eq_filter, List.mem_filterMap, List.mem_filter, live?,
    Option.map_eq_some_iff, Option.bind_eq_some_iff, Prod.exists, Prod.mk.injEq, List.isPrefixOf_iff_prefix,
    Std.TreeMap.mem_toList_iff_getElem?_eq_some]
  constructor
  · rintro ⟨_, entry, ⟨hentry, hstart⟩, _, hunpack, rfl, rfl⟩
    exact ⟨hstart, entry, hentry, hunpack⟩
  · rintro ⟨hstart, entry, hentry, hunpack⟩
    exact ⟨key, entry, ⟨hentry, hstart⟩, payload, hunpack, rfl, rfl⟩

/-- Every node and every edge that has not expired can be read. -/
structure Decodes (k : Keyed) : Prop where
  nodes : ∀ entry ∈ k.liveUnder (k.layout.start ["node"]), ∃ n, decodeNode entry.2 = .ok n
  edges : ∀ entry ∈ k.liveUnder (k.layout.start ["edges"]), ∃ e, decodeEdge entry.2 = .ok e

theorem decodes_iff :
    k.Decodes ↔
      (∀ entry ∈ k.liveUnder (k.layout.start ["node"]), (decodeNode entry.2).isOk = true) ∧
        ∀ entry ∈ k.liveUnder (k.layout.start ["edges"]), (decodeEdge entry.2).isOk = true := by
  simp only [isOk_iff]
  exact ⟨fun h => ⟨h.nodes, h.edges⟩, fun h => ⟨h.1, h.2⟩⟩

instance (k : Keyed) : Decidable k.Decodes := decidable_of_iff _ decodes_iff.symm

/-- Every node and every edge that has not expired can be read, and is the one that its key calls for. -/
structure DecodesInPlace (k : Keyed) : Prop where
  node : ∀ {id payload}, k.live? (k.layout.node id) = some payload →
    ∃ n, decodeNode payload = .ok n ∧ n.id = id
  edge : ∀ {key payload}, k.layout.start ["edges"] <+: key → k.live? key = some payload →
    ∃ e, decodeEdge payload = .ok e ∧ k.layout.edge e.key = key

/-- **Records that can be read are in their places.** -/
theorem CanArise.decodesInPlace (h : k.CanArise) (hdecodes : k.Decodes) : k.DecodesInPlace where
  node {id payload} hlive := by
    have hstart : k.layout.start ["node"] <+: (Slot.node id).bytes k.layout :=
      Slot.start_node_isPrefix.mpr ⟨id, rfl⟩
    obtain ⟨d, hd⟩ := hdecodes.nodes (k.layout.node id, payload) (mem_liveUnder.mpr ⟨hstart, hlive⟩)
    obtain ⟨entry, hentry, hunpack⟩ := Option.bind_eq_some_iff.mp hlive
    have hrecord := h.isFiled.entries _ entry hentry
    refine ⟨d, hd, ?_⟩
    -- No other slot has the key of a node.
    have hkey : k.layout.node id = (Slot.node id).bytes k.layout := rfl
    rw [hkey] at hrecord
    generalize hbytes : (Slot.node id).bytes k.layout = key at hrecord
    cases hrecord with
    | node n hfits expiry =>
        have hslot : Slot.node n.id = Slot.node id := Slot.node_bytes_eq_iff.mp hbytes.symm
        obtain rfl := unpack?_pack_eq_some hunpack
        rw [(hfits.readsAs hd).id_eq, Slot.node.inj hslot]
    | edge e hfits expiry =>
        have hslot : Slot.edge e.key = Slot.node id := Slot.node_bytes_eq_iff.mp hbytes.symm
        cases hslot
    | beside hnode hedge entry => exact absurd (Slot.node_bytes_eq_iff.mp hbytes.symm) (hnode id)
  edge {key payload} hstart hlive := by
    obtain ⟨d, hd⟩ := hdecodes.edges (key, payload) (mem_liveUnder.mpr ⟨hstart, hlive⟩)
    obtain ⟨entry, hentry, hunpack⟩ := Option.bind_eq_some_iff.mp hlive
    refine ⟨d, hd, ?_⟩
    -- A scan for edges finds no other slots.
    cases h.isFiled.entries key entry hentry with
    | node n hfits expiry =>
        obtain ⟨other, hother⟩ := Slot.start_edges_isPrefix.mp hstart
        cases hother
    | edge e hfits expiry =>
        obtain rfl := unpack?_pack_eq_some hunpack
        exact congrArg k.layout.edge (hfits.readsAs hd).key_eq
    | beside hnode hedge entry =>
        obtain ⟨other, hother⟩ := Slot.start_edges_isPrefix.mp hstart
        exact absurd hother (hedge other)

end Keyed

end ProgramGraph
