import Mathlib.Data.List.Nodup
import ProgramGraph.Proofs.Store.ByteMap
import ProgramGraph.Proofs.Store.Content
import ProgramGraph.Proofs.Store.Layout
import ProgramGraph.Proofs.Store.Records

set_option autoImplicit false

/-! # Entries of a keyed store

Every entry of a keyed store stands in a slot and says what the slot holds: a node, an edge, or
only that something is there (`Stored`). A content fills slots (`Content.at?`). A byte map lists
slots if it has their entries and no others, and no two of them share a key (`ByteMap.Lists`).
Filling a slot empties any other that shares its key (`ByteMap.filledAt`). Where the identifiers of
the filled slots can be told apart there is no other, so that changing the entry of one slot leaves
the rest alone (`ByteMap.Holds`).
-/

namespace ProgramGraph

open ProgramGraph.Text

/-- What stands in a slot. -/
inductive Stored where
  | node (n : Node)
  | edge (e : Edge)
  /-- Only that there is something. -/
  | mark

/-- The entry says what stands in the slot, and stays for ever. -/
def Stored.IsIn (entry : Bytes) (v : Stored) : Prop :=
  ∃ payload, entry = Envelope.pack 0 payload ∧
    match v with
    | .node n => Keyed.decodeNode payload = .ok n
    | .edge e => Keyed.decodeEdge payload = .ok e
    | .mark => True

/-- What a content has in a slot. -/
def Content.at? (c : Content) : Slot → Option Stored
  | .node id => (c.node? id).map .node
  | .nodeOfKind kind id => (c.node? id).bind fun n => if n.kind = kind then some .mark else none
  | .edge key | .incoming key => (c.edge? key).map .edge
  | .edgeOfKind key => (c.edge? key).map fun _ => .mark

/-! ## Entries of slots -/

namespace ByteMap

/-- The entries are those of the filled slots, no two of which share a key. -/
structure Lists (m : ByteMap) (layout : KeyLayout) (filled : Slot → Option Stored) : Prop where
  sound : ∀ key entry, m[key]? = some entry →
    ∃ slot v, filled slot = some v ∧ slot.bytes layout = key ∧ v.IsIn entry
  complete : ∀ slot v, filled slot = some v →
    ∃ entry, m[slot.bytes layout]? = some entry ∧ v.IsIn entry
  separate : ∀ {s t v w}, filled s = some v → filled t = some w → s.bytes layout = t.bytes layout → s = t

variable {m : ByteMap} {layout : KeyLayout} {used : String → Prop}
  {filled : Slot → Option Stored}

/-- The slots after one of them is filled. Any other slot with its key loses what it held. -/
def filledAt (layout : KeyLayout) (slot : Slot) (v : Stored) (filled : Slot → Option Stored) :
    Slot → Option Stored := fun s =>
  if s = slot then some v else if s.bytes layout = slot.bytes layout then none else filled s

theorem filledAt_eq_some {slot s : Slot} {v w : Stored} :
    filledAt layout slot v filled s = some w ↔
      (s = slot ∧ v = w) ∨ (s.bytes layout ≠ slot.bytes layout ∧ filled s = some w) := by
  rw [filledAt]
  by_cases hs : s = slot
  · simp [hs]
  · by_cases hbytes : s.bytes layout = slot.bytes layout <;> simp [hs, hbytes]

/-- A slot is filled. -/
theorem Lists.put (h : m.Lists layout filled) (slot : Slot) {v : Stored} {entry : Bytes}
    (hentry : v.IsIn entry) :
    (m.write (.put (slot.bytes layout) entry)).Lists layout (filledAt layout slot v filled) where
  sound key value hkey := by
    change (m.insert (slot.bytes layout) entry)[key]? = some value at hkey
    rw [getElem?_inserted] at hkey
    split at hkey
    · rename_i hbytes
      exact ⟨slot, v, if_pos rfl, hbytes.symm, Option.some.inj hkey ▸ hentry⟩
    · rename_i hne
      obtain ⟨other, w, hw, rfl, hin⟩ := h.sound key value hkey
      exact ⟨other, w, filledAt_eq_some.mpr (.inr ⟨hne, hw⟩), rfl, hin⟩
  complete s w hw := by
    show ∃ e, (m.insert (slot.bytes layout) entry)[s.bytes layout]? = some e ∧ w.IsIn e
    rw [getElem?_inserted]
    obtain ⟨rfl, rfl⟩ | ⟨hne, hw⟩ := filledAt_eq_some.mp hw
    · exact ⟨entry, if_pos rfl, hentry⟩
    · rw [if_neg hne]
      exact h.complete s w hw
  separate {s t _ _} hs ht hbytes := by
    -- two slots of one key are the new one, or both were filled before
    obtain ⟨rfl, -⟩ | ⟨hne, hs⟩ := filledAt_eq_some.mp hs
    · obtain ⟨rfl, -⟩ | ⟨hne, -⟩ := filledAt_eq_some.mp ht
      · rfl
      · exact absurd hbytes.symm hne
    · obtain ⟨rfl, -⟩ | ⟨-, ht⟩ := filledAt_eq_some.mp ht
      · exact absurd hbytes hne
      · exact h.separate hs ht hbytes

/-- Keys are deleted one after the other. -/
theorem Lists.deleteAll (h : m.Lists layout filled) (keys : List Bytes) :
    (m.writeAll (keys.map .delete)).Lists layout fun s =>
      if s.bytes layout ∈ keys then none else filled s := by
  have hkept : ∀ {s v}, (if s.bytes layout ∈ keys then none else filled s) = some v →
      s.bytes layout ∉ keys ∧ filled s = some v := fun {s v} hs => by
    split at hs
    · cases hs
    · rename_i hnot
      exact ⟨hnot, hs⟩
  refine ⟨fun key entry hentry => ?_, fun s v hs => ?_, fun hs ht => h.separate (hkept hs).2 (hkept ht).2⟩
  · rw [getElem?_deleteAll] at hentry
    split at hentry
    · cases hentry
    · rename_i hnot
      obtain ⟨slot, v, hv, rfl, hin⟩ := h.sound key entry hentry
      exact ⟨slot, v, (if_neg hnot).trans hv, rfl, hin⟩
  · obtain ⟨hnot, hs⟩ := hkept hs
    rw [getElem?_deleteAll, if_neg hnot]
    exact h.complete s v hs

/-! ## Slots that are used -/

/-- The entries are those of the filled slots, which are used. -/
structure Holds (m : ByteMap) (layout : KeyLayout) (used : String → Prop)
    (filled : Slot → Option Stored) : Prop where
  sound : ∀ key entry, m[key]? = some entry →
    ∃ slot v, filled slot = some v ∧ slot.bytes layout = key ∧ v.IsIn entry
  complete : ∀ slot v, filled slot = some v →
    ∃ entry, m[slot.bytes layout]? = some entry ∧ v.IsIn entry
  used : ∀ slot v, filled slot = some v → slot.IsUsed used

theorem holds_empty (layout : KeyLayout) (used : String → Prop) :
    Holds ∅ layout used (∅ : Content).at? where
  sound key entry h := by simp at h
  complete slot v h := by
    cases slot <;> simp [Content.at?, EmptyCollection.emptyCollection, Content.empty] at h
  used slot v h := by
    cases slot <;> simp [Content.at?, EmptyCollection.emptyCollection, Content.empty] at h

/-- The entries of slots that are used can be told apart. -/
theorem Holds.lists (h : m.Holds layout used filled) (hused : Unambiguous used) :
    m.Lists layout filled where
  sound := h.sound
  complete := h.complete
  separate hs ht hbytes := Slot.bytes_injective hused (h.used _ _ hs) (h.used _ _ ht) hbytes

/-- A slot is filled, which leaves every other slot alone. -/
theorem Holds.put (h : m.Holds layout used filled) (hused : Unambiguous used) (slot : Slot)
    (hslot : slot.IsUsed used) {v : Stored} {entry : Bytes} (hentry : v.IsIn entry) :
    (m.write (.put (slot.bytes layout) entry)).Holds layout used
      (fun s => if s = slot then some v else filled s) := by
  have halone : filledAt layout slot v filled = fun s => if s = slot then some v else filled s := by
    funext s
    rw [filledAt]
    refine ite_congr rfl (fun _ => rfl) fun hs => ite_eq_right_iff.mpr fun hbytes => ?_
    cases hfilled : filled s with
    | none => rfl
    | some w => exact absurd (Slot.bytes_injective hused (h.used s w hfilled) hslot hbytes) hs
  have hlists := (h.lists hused).put slot hentry
  rw [halone] at hlists
  refine ⟨hlists.sound, hlists.complete, fun s w hw => ?_⟩
  by_cases hs : s = slot
  · exact hs ▸ hslot
  · exact h.used s w ((if_neg hs).symm.trans hw)

/-- Slots are emptied one after the other, and no others. -/
theorem Holds.deleteAll (h : m.Holds layout used filled) (hused : Unambiguous used)
    {slots : List Slot} (hslots : ∀ slot ∈ slots, slot.IsUsed used) :
    (m.writeAll (slots.map fun slot => .delete (slot.bytes layout))).Holds layout used
      (fun s => if s ∈ slots then none else filled s) := by
  have halone : (fun s => if s.bytes layout ∈ slots.map (·.bytes layout) then none else filled s) =
      fun s => if s ∈ slots then none else filled s := by
    funext s
    cases hfilled : filled s with
    | none => rw [ite_self, ite_self]
    | some w =>
        refine if_congr ⟨fun hmem => ?_, List.mem_map_of_mem⟩ rfl rfl
        obtain ⟨slot, hslot, hbytes⟩ := List.mem_map.mp hmem
        exact Slot.bytes_injective hused (hslots slot hslot) (h.used s w hfilled) hbytes ▸ hslot
  have hlists := (h.lists hused).deleteAll (slots.map (·.bytes layout))
  rw [halone, List.map_map] at hlists
  refine ⟨hlists.sound, hlists.complete, fun s w hw => ?_⟩
  split at hw
  · cases hw
  · exact h.used s w hw

/-! ## Slots under a beginning -/

theorem exists_map_eq {α β : Type} {f : α → β} {p : α → Prop} {items : List β}
    (h : ∀ b ∈ items, ∃ a, p a ∧ f a = b) : ∃ as : List α, as.map f = items ∧ ∀ a ∈ as, p a := by
  induction items with
  | nil => exact ⟨[], rfl, by simp⟩
  | cons b rest ih =>
      obtain ⟨a, ha, hab⟩ := h b List.mem_cons_self
      obtain ⟨as, has, hall⟩ := ih fun c hc => h c (List.mem_cons_of_mem _ hc)
      exact ⟨a :: as, by rw [List.map_cons, hab, has], by simpa using ⟨ha, hall⟩⟩

/-- **The keys under a beginning** are those of the filled slots of a family, if the beginning
is that of the family. -/
theorem Lists.keysUnder_eq (h : m.Lists layout filled) {start : Bytes} {α : Type} {slotOf : α → Slot}
    (hinj : Function.Injective slotOf) {p : α → Prop}
    (hfamily : ∀ slot, start <+: slot.bytes layout ↔ ∃ a, p a ∧ slot = slotOf a) :
    ∃ as, Enumerates (fun a => (filled (slotOf a)).isSome = true ∧ p a) as ∧
      m.keysUnder start = as.map fun a => (slotOf a).bytes layout := by
  have hslots : ∀ key ∈ m.keysUnder start,
      ∃ a, ((filled (slotOf a)).isSome = true ∧ p a) ∧ (slotOf a).bytes layout = key := by
    intro key hkey
    obtain ⟨hmem, hprefix⟩ := mem_keysUnder.mp hkey
    obtain ⟨entry, hentry⟩ := Option.isSome_iff_exists.mp (Std.TreeMap.mem_iff_isSome_getElem?.mp hmem)
    obtain ⟨slot, v, hv, rfl, -⟩ := h.sound key entry hentry
    obtain ⟨a, ha, rfl⟩ := (hfamily slot).mp hprefix
    exact ⟨a, ⟨by simp [hv], ha⟩, rfl⟩
  obtain ⟨as, hkeys, hall⟩ := exists_map_eq hslots
  refine ⟨as, ⟨List.Nodup.of_map _ (hkeys ▸ m.nodup_keysUnder start), fun a => ⟨hall a, ?_⟩⟩, hkeys.symm⟩
  rintro ⟨hsome, ha⟩
  obtain ⟨v, hv⟩ := Option.isSome_iff_exists.mp hsome
  obtain ⟨entry, hentry, -⟩ := h.complete _ v hv
  have hmem : (slotOf a).bytes layout ∈ m.keysUnder start :=
    mem_keysUnder.mpr ⟨Std.TreeMap.mem_iff_isSome_getElem?.mpr (by simp [hentry]),
      (hfamily _).mpr ⟨a, ha, rfl⟩⟩
  rw [← hkeys] at hmem
  obtain ⟨b, hb, hbytes⟩ := List.mem_map.mp hmem
  obtain ⟨w, hw⟩ := Option.isSome_iff_exists.mp (hall b hb).1
  -- The item in the list has the key of ours, and no two filled slots share one.
  exact hinj (h.separate hw hv hbytes) ▸ hb

end ByteMap

/-! ## Contents in slots -/

namespace Content

variable {c : Content}

/-- A node fills two slots. Since the kind of a node is known, it leaves no third one behind. -/
theorem at?_putNode {n : Node} (hkind : ∀ old, c.node? n.id = some old → old.kind = n.kind) :
    (c.putNode n).at? = fun slot =>
      if slot = .nodeOfKind n.kind n.id then some .mark
      else if slot = .node n.id then some (.node n) else c.at? slot := by
  funext slot
  cases slot with
  | node id => by_cases hid : id = n.id <;> simp [at?, putNode, hid]
  | nodeOfKind kind id =>
      by_cases hid : id = n.id
      · subst hid
        by_cases hk : kind = n.kind
        · simp [at?, putNode, hk]
        · have hk' : ¬n.kind = kind := fun heq => hk heq.symm
          cases hold : c.node? n.id with
          | none => simp [at?, putNode, hk, hk', hold]
          | some old => simp [at?, putNode, hk, hk', hold, hkind old hold]
      · simp [at?, putNode, hid]
  | _ => simp [at?, putNode]

/-- An edge fills three slots. -/
theorem at?_putEdge (e : Edge) :
    (c.putEdge true e).at? = fun slot =>
      if slot = .edgeOfKind e.key then some .mark
      else if slot = .incoming e.key then some (.edge e)
      else if slot = .edge e.key then some (.edge e) else c.at? slot := by
  funext slot
  cases slot with
  | node | nodeOfKind => simp [at?, putEdge]
  | edge key | incoming key | edgeOfKind key =>
      by_cases hkey : key = e.key <;> simp [at?, putEdge, hkey]

/-- What is taken out empties its slots. -/
theorem at?_drop (nodes : String → Bool) (edges : EdgeKey → Bool) (slots : List Slot)
    (hnode : ∀ id n, c.node? id = some n → (.node id ∈ slots ↔ nodes id = true))
    (hkind : ∀ id n, c.node? id = some n → (.nodeOfKind n.kind id ∈ slots ↔ nodes id = true))
    (hedge : ∀ key, c.hasEdge key = true → (.edge key ∈ slots ↔ edges key = true))
    (hincoming : ∀ key, c.hasEdge key = true → (.incoming key ∈ slots ↔ edges key = true))
    (hrelation : ∀ key, c.hasEdge key = true → (.edgeOfKind key ∈ slots ↔ edges key = true)) :
    (c.drop nodes edges).at? = fun slot => if slot ∈ slots then none else c.at? slot := by
  -- the three slots of an edge empty for the same reason
  have hslot : ∀ (slot : Slot) (key : EdgeKey) (f : Edge → Stored),
      (c.hasEdge key = true → (slot ∈ slots ↔ edges key = true)) →
        ((c.drop nodes edges).edge? key).map f =
          if slot ∈ slots then none else (c.edge? key).map f := by
    intro slot key f hmem
    cases he : c.edge? key with
    | none => simp [drop, he]
    | some e =>
        have hmem := hmem (by simp [hasEdge, he])
        by_cases hgo : edges key = true <;> simp [drop, he, hmem, hgo]
  funext slot
  cases slot with
  | node id =>
      cases hn : c.node? id with
      | none => simp [at?, drop, hn]
      | some n => by_cases hgo : nodes id = true <;> simp [at?, drop, hn, hnode id n hn, hgo]
  | nodeOfKind kind id =>
      cases hn : c.node? id with
      | none => simp [at?, drop, hn]
      | some n =>
          by_cases hk : n.kind = kind
          · subst hk
            by_cases hgo : nodes id = true <;> simp [at?, drop, hn, hkind id n hn, hgo]
          · by_cases hgo : nodes id = true <;> simp [at?, drop, hn, hk, hgo]
  | edge key => exact hslot (.edge key) key .edge (hedge key)
  | incoming key => exact hslot (.incoming key) key .edge (hincoming key)
  | edgeOfKind key => exact hslot (.edgeOfKind key) key (fun _ => .mark) (hrelation key)

end Content

end ProgramGraph
