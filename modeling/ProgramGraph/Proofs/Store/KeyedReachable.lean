import ProgramGraph.Proofs.Store.KeyedRecords

set_option autoImplicit false

/-! # Keyed stores that can come about

`Keyed.Reachable` is every keyed store without a span of life that operations, transactions and the
passing of time lead to, whatever identifiers they use. Edges may have met on one key on the way, so
that an edge stands under its source and no longer under its target, or the other way round. What
holds of every such store is that it is tidy (`Keyed.Reachable.isTidy`): each edge that is read stands
under its own key, and an edge stands under its source just if it stands under its relation.

Inside a transaction changes are worked out on one map and made on another. So what is collected
must keep any tidy map tidy (`Keyed.Keeps`), not only the one that it was worked out on.
-/

namespace ProgramGraph

open ProgramGraph.Text

/-- The record belongs in the slot. What the entry of a node says is left open. -/
def Slot.Suits : Slot → Stored → Prop
  | .edge key, .edge e | .incoming key, .edge e => e.key = key
  | .node _, .mark | .nodeOfKind .., .mark | .edgeOfKind _, .mark => True
  | _, _ => False

theorem Stored.mark_isIn (payload : Bytes) : Stored.mark.IsIn (Envelope.pack 0 payload) :=
  ⟨payload, rfl, trivial⟩

/-! ## Tidy maps -/

namespace ByteMap

variable {m : ByteMap} {layout : KeyLayout} {filled : Slot → Option Stored}

/-- Each filled slot has a record that belongs there. -/
structure IsProper (m : ByteMap) (layout : KeyLayout) (filled : Slot → Option Stored) : Prop
    extends Lists m layout filled where
  suits : ∀ {slot v}, filled slot = some v → slot.Suits v

/-- Besides, an edge has both the slot under its source and the one under its relation, or neither. -/
structure IsTidy (m : ByteMap) (layout : KeyLayout) (filled : Slot → Option Stored) : Prop
    extends IsProper m layout filled where
  paired : ∀ key, (filled (.edge key)).isSome = (filled (.edgeOfKind key)).isSome

theorem isTidy_empty (layout : KeyLayout) : IsTidy ∅ layout fun _ => none where
  sound key entry h := by simp at h
  complete slot v h := by cases h
  separate h := by cases h
  suits h := by cases h
  paired key := rfl

theorem IsProper.put (h : m.IsProper layout filled) (slot : Slot) {v : Stored} {entry : Bytes}
    (hentry : v.IsIn entry) (hsuits : slot.Suits v) :
    (m.write (.put (slot.bytes layout) entry)).IsProper layout (filledAt layout slot v filled) where
  toLists := h.toLists.put slot hentry
  suits hw := by
    obtain ⟨rfl, rfl⟩ | ⟨-, hw⟩ := filledAt_eq_some.mp hw
    · exact hsuits
    · exact h.suits hw

theorem IsProper.deleteAll (h : m.IsProper layout filled) (keys : List Bytes) :
    (m.writeAll (keys.map .delete)).IsProper layout fun s =>
      if s.bytes layout ∈ keys then none else filled s where
  toLists := h.toLists.deleteAll keys
  suits {slot v} hv := by
    split at hv
    · cases hv
    · exact h.suits hv

/-- A slot of another family stays as it is. -/
theorem filledAt_of_family {slot s : Slot} {v : Stored} (h : s.family ≠ slot.family) :
    filledAt layout slot v filled s = filled s := by
  rw [filledAt, if_neg fun heq => h (congrArg Slot.family heq), if_neg (Slot.bytes_ne_of_family h)]

theorem filledAt_congr {filled' : Slot → Option Stored} {slot s : Slot} {v : Stored}
    (h : filled s = filled' s) : filledAt layout slot v filled s = filledAt layout slot v filled' s := by
  rw [filledAt, filledAt, h]

/-- A node is put in. -/
theorem IsTidy.putNode (h : m.IsTidy layout filled) (n : Node) :
    ∃ filled', (m.writeAll (Keyed.nodeWrites layout 0 n)).IsTidy layout filled' := by
  have hnode := h.toIsProper.put (.node n.id) (Stored.mark_isIn (MsgPack.encode n.toWire)) trivial
  have hput := hnode.put (.nodeOfKind n.kind n.id) (Stored.mark_isIn []) trivial
  refine ⟨_, hput, fun key => ?_⟩
  rw [filledAt_of_family (by simp [Slot.family]), filledAt_of_family (by simp [Slot.family]),
    filledAt_of_family (by simp [Slot.family]), filledAt_of_family (by simp [Slot.family])]
  exact h.paired key

/-- The slots after an edge is put in. -/
def withEdge (layout : KeyLayout) (e : Edge) (filled : Slot → Option Stored) : Slot → Option Stored :=
  filledAt layout (.edgeOfKind e.key) .mark
    (filledAt layout (.incoming e.key) (.edge e) (filledAt layout (.edge e.key) (.edge e) filled))

theorem withEdge_edge (e : Edge) (key : EdgeKey) :
    withEdge layout e filled (.edge key) =
      filledAt layout (.edge e.key) (.edge e) filled (.edge key) :=
  (filledAt_of_family (by simp [Slot.family])).trans (filledAt_of_family (by simp [Slot.family]))

theorem withEdge_incoming (e : Edge) (key : EdgeKey) :
    withEdge layout e filled (.incoming key) =
      filledAt layout (.incoming e.key) (.edge e) filled (.incoming key) :=
  (filledAt_of_family (by simp [Slot.family])).trans
    (filledAt_congr (filledAt_of_family (by simp [Slot.family])))

theorem withEdge_edgeOfKind (e : Edge) (key : EdgeKey) :
    withEdge layout e filled (.edgeOfKind key) =
      filledAt layout (.edgeOfKind e.key) .mark filled (.edgeOfKind key) :=
  filledAt_congr
    ((filledAt_of_family (by simp [Slot.family])).trans (filledAt_of_family (by simp [Slot.family])))

/-- An edge is put in, as it is read. -/
theorem IsTidy.putEdge (h : m.IsTidy layout filled) {e d : Edge} (hread : e.ReadsAs d) :
    (m.writeAll (Keyed.edgeWrites layout 0 e)).IsTidy layout (withEdge layout d filled) where
  toIsProper := by
    have hedge : (Stored.edge d).IsIn (Envelope.pack 0 (MsgPack.encode e.toWire)) :=
      ⟨_, rfl, hread.decodes⟩
    -- the slots are those of the edge it reads as, since both have one key
    have hwrites : Keyed.edgeWrites layout 0 e =
        [.put ((Slot.edge d.key).bytes layout) (Envelope.pack 0 (MsgPack.encode e.toWire)),
          .put ((Slot.incoming d.key).bytes layout) (Envelope.pack 0 (MsgPack.encode e.toWire)),
          .put ((Slot.edgeOfKind d.key).bytes layout) (Envelope.pack 0 [])] := by
      rw [hread.key_eq]
      rfl
    have hput := (h.toIsProper.put (.edge d.key) hedge rfl).put (.incoming d.key) hedge rfl
    rw [hwrites]
    exact hput.put (.edgeOfKind d.key) (Stored.mark_isIn []) trivial
  paired key := by
    rw [withEdge_edge, withEdge_edgeOfKind, filledAt, filledAt]
    -- an edge and its mark are filled together
    simp only [Slot.edge.injEq, Slot.edgeOfKind.injEq, Slot.edge_bytes_eq_iff, Slot.edgeOfKind_bytes_eq_iff]
    split_ifs
    · rfl
    · rfl
    · exact h.paired key

/-- Keys are deleted, that of an edge under its source together with that under its relation. -/
theorem IsTidy.deleteAll (h : m.IsTidy layout filled) {keys : List Bytes}
    (hkeys : ∀ key, (Slot.edge key).bytes layout ∈ keys ↔ (Slot.edgeOfKind key).bytes layout ∈ keys) :
    (m.writeAll (keys.map .delete)).IsTidy layout fun s =>
      if s.bytes layout ∈ keys then none else filled s where
  toIsProper := h.toIsProper.deleteAll keys
  paired key := by
    simp only [hkeys]
    split
    · rfl
    · exact h.paired key

/-- The keys of an edge under its source and under its relation are both there, or neither is. -/
theorem IsTidy.mem_edge_iff (h : m.IsTidy layout filled) (key : EdgeKey) :
    (Slot.edge key).bytes layout ∈ m ↔ (Slot.edgeOfKind key).bytes layout ∈ m := by
  have hmem : ∀ {slot : Slot}, slot.bytes layout ∈ m ↔
      ∃ s, (filled s).isSome = true ∧ s.bytes layout = slot.bytes layout := fun {slot} => by
    rw [Std.TreeMap.mem_iff_isSome_getElem?, Option.isSome_iff_exists]
    constructor
    · rintro ⟨entry, hentry⟩
      obtain ⟨s, v, hv, hbytes, -⟩ := h.sound _ entry hentry
      exact ⟨s, by rw [hv]; rfl, hbytes⟩
    · rintro ⟨s, hs, hbytes⟩
      obtain ⟨v, hv⟩ := Option.isSome_iff_exists.mp hs
      obtain ⟨entry, hentry, -⟩ := h.complete s v hv
      exact ⟨entry, hbytes ▸ hentry⟩
  rw [hmem, hmem]
  exact Slot.exists_edge_bytes_eq_iff (fun other => by rw [h.paired]) key

end ByteMap

/-! ## Operations -/

/-- What an operation saves stays for ever, and the edges among it can be read again. -/
structure Store.Operation.Lasts (op : Store.Operation) : Prop where
  edges : ∀ e ∈ op.savedEdges, ∃ d, e.ReadsAs d
  life : ∀ g options d, op = .saveGraph g options → options.life ≠ .span d

namespace Keyed

/-- What an operation submits where nothing is to expire. -/
theorem submission_cases_of_lasting {k : Keyed} (hlife : k.settings.defaultLife = none) {op : Store.Operation}
    (hspan : ∀ g options d, op = .saveGraph g options → options.life ≠ .span d) {writes : List ByteWrite}
    (hwrites : k.submission op = .ok writes) :
    writes = op.savedNodes.flatMap (nodeWrites k.layout 0) ++
        op.savedEdges.flatMap (edgeWrites k.layout 0) ∨
      (∃ ids keys, writes = slotDeletes k.layout (slotsOf ids keys)) ∨ writes = k.allDeletes := by
  have hexpiry : k.expiry op.life = 0 := by
    apply expiry_eq hlife
    cases op with
    | saveGraph g options => exact fun d => hspan g options d rfl
    | _ => exact fun d heq => by cases heq
  have hcases := submission_cases hwrites
  rwa [hexpiry] at hcases

/-- The writes keep every tidy map tidy. -/
structure Keeps (layout : KeyLayout) (writes : List ByteWrite) : Prop where
  isTidy : ∀ {m : ByteMap} {filled}, m.IsTidy layout filled →
    ∃ filled', (m.writeAll writes).IsTidy layout filled'

variable {layout : KeyLayout} {k : Keyed}

theorem keeps_nil : Keeps layout [] := ⟨fun h => ⟨_, h⟩⟩

theorem Keeps.append {first next : List ByteWrite} (hfirst : Keeps layout first)
    (hnext : Keeps layout next) : Keeps layout (first ++ next) where
  isTidy h := by
    obtain ⟨filled, h⟩ := hfirst.isTidy h
    rw [ByteMap.writeAll_append]
    exact hnext.isTidy h

theorem keeps_flatMap {α : Type} {f : α → List ByteWrite} {items : List α}
    (h : ∀ a ∈ items, Keeps layout (f a)) : Keeps layout (items.flatMap f) := by
  induction items with
  | nil => exact keeps_nil
  | cons a rest ih =>
      rw [List.flatMap_cons]
      exact (h a List.mem_cons_self).append (ih fun b hb => h b (List.mem_cons_of_mem _ hb))

theorem keeps_nodeWrites (layout : KeyLayout) (n : Node) : Keeps layout (nodeWrites layout 0 n) :=
  ⟨fun htidy => htidy.putNode n⟩

theorem keeps_edgeWrites {e : Edge} (h : ∃ d, e.ReadsAs d) : Keeps layout (edgeWrites layout 0 e) :=
  h.elim fun _ hread => ⟨fun htidy => ⟨_, htidy.putEdge hread⟩⟩

/-- Slots are emptied, of each edge that under its source together with that under its relation. -/
theorem keeps_slotDeletes (layout : KeyLayout) {slots : List Slot}
    (hslots : ∀ key, Slot.edge key ∈ slots ↔ Slot.edgeOfKind key ∈ slots) :
    Keeps layout (slotDeletes layout slots) where
  isTidy h := by
    rw [slotDeletes_eq]
    refine ⟨_, h.deleteAll fun key => ?_⟩
    rw [List.mem_map, List.mem_map]
    exact Slot.exists_edge_bytes_eq_iff hslots key

theorem keeps_allDeletes {filled : Slot → Option Stored} (h : k.entries.IsTidy k.layout filled) :
    Keeps k.layout k.allDeletes where
  isTidy hm := by
    rw [allDeletes_eq_keysUnder]
    refine ⟨_, hm.deleteAll fun key => ?_⟩
    rw [ByteMap.mem_keysUnder, ByteMap.mem_keysUnder, h.mem_edge_iff,
      and_iff_left (Slot.start_nil_isPrefix _), and_iff_left (Slot.start_nil_isPrefix _)]

/-- **What an operation submits** keeps tidy maps tidy. -/
theorem keeps_submission {filled : Slot → Option Stored} (h : k.entries.IsTidy k.layout filled)
    (hlife : k.settings.defaultLife = none) {op : Store.Operation} (hop : op.Lasts)
    {writes : List ByteWrite} (hwrites : k.submission op = .ok writes) : Keeps k.layout writes := by
  obtain rfl | ⟨ids, keys, rfl⟩ | rfl := submission_cases_of_lasting hlife hop.life hwrites
  · exact (keeps_flatMap fun n _ => keeps_nodeWrites k.layout n).append
      (keeps_flatMap fun e he => keeps_edgeWrites (hop.edges e he))
  · exact keeps_slotDeletes k.layout (by simp [slotsOf, nodeSlots, edgeSlots])
  · exact keeps_allDeletes h

/-! ## Stores -/

/-- A keyed store that can come about where nothing is to expire. -/
inductive Reachable : Keyed → Prop where
  | fresh {settings : KeyedSettings} (stays : settings.defaultLife = none) (now : UInt64) :
      Reachable (.ofEntries settings ∅ now)
  | perform {k k' : Keyed} (h : Reachable k) {op : Store.Operation} (hop : op.Lasts)
      (hrun : (Store.keyed k).perform op = .ok (.keyed k')) : Reachable k'
  | enterScope {k : Keyed} (h : Reachable k) : Reachable k.enterScope
  /-- A transaction ends inside another, or it ends without effect. -/
  | leaveScope {k : Keyed} (h : Reachable k) : Reachable k.leaveScope
  /-- An outermost transaction ends well. -/
  | commit {k : Keyed} (h : Reachable k) (outermost : k.depth = 1) : Reachable k.commit
  | atMoment {k : Keyed} (h : Reachable k) (now : UInt64) : Reachable { k with now := now }

/-- The entries are tidy and stay so when what is collected is made. -/
structure IsTidy (k : Keyed) : Prop where
  stays : k.settings.defaultLife = none
  entries : ∃ filled, k.entries.IsTidy k.layout filled
  collected : Keeps k.layout k.collected.toList

/-- What keeps tidy maps tidy, made on a tidy map. -/
theorem sustains_isTidy : Sustains (fun layout m => ∃ filled, m.IsTidy layout filled) Keeps where
  nil _ := keeps_nil
  append := Keeps.append
  writeAll := fun ⟨_, hm⟩ hwrites => hwrites.isTidy hm

namespace IsTidy

variable {k k' : Keyed}

theorem upholds (h : k.IsTidy) : k.Upholds (fun layout m => ∃ filled, m.IsTidy layout filled) Keeps :=
  ⟨h.entries, h.collected⟩

theorem ofUpholds (hstays : k.settings.defaultLife = none)
    (h : k.Upholds (fun layout m => ∃ filled, m.IsTidy layout filled) Keeps) : k.IsTidy :=
  ⟨hstays, h.entries, h.collected⟩

/-- **An operation** keeps a store tidy. -/
theorem perform (h : k.IsTidy) {op : Store.Operation} (hop : op.Lasts)
    (hrun : (Store.keyed k).perform op = .ok (.keyed k')) : k'.IsTidy := by
  obtain ⟨filled, hfilled⟩ := h.entries
  obtain ⟨writes, hwrites, ⟨⟩⟩ := exists_submit_of_perform hrun
  refine .ofUpholds ?_ (h.upholds.submit sustains_isTidy (keeps_submission hfilled h.stays hop hwrites))
  rw [settings_submit]
  exact h.stays

end IsTidy

/-- **Every store that can come about is tidy.** -/
theorem Reachable.isTidy {k : Keyed} (h : k.Reachable) : k.IsTidy := by
  induction h with
  | fresh stays now => exact ⟨stays, ⟨_, ByteMap.isTidy_empty _⟩, keeps_nil⟩
  | perform _ hop hrun ih => exact ih.perform hop hrun
  | enterScope _ ih => exact ⟨ih.stays, ih.entries, ih.collected⟩
  | leaveScope _ ih => exact .ofUpholds ih.stays (ih.upholds.leaveScope sustains_isTidy)
  | commit _ _ ih => exact .ofUpholds ih.stays (ih.upholds.commit sustains_isTidy)
  | atMoment _ now ih => exact ⟨ih.stays, ih.entries, ih.collected⟩

end Keyed

end ProgramGraph
