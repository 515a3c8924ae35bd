import ProgramGraph.Proofs.Graph.Index
import ProgramGraph.Proofs.Store.KeyedReachable

set_option autoImplicit false

/-! # Edges that meet on one key

A key of an edge joins its two ends by a colon, and identifiers have colons in them. So two edges can
have one key under their sources, or under their targets (`EdgeKey.Meets`). Looking again at the ends
of what a scan finds keeps edges of other nodes out of an answer, but does not bring back an edge whose
entry was overwritten or deleted together with that of another edge.

`Keyed.Reachable.shows_iff_not_meets` says just when an edge survives the saving or deletion of another
one: in each direction it does unless the two meet there. Edges that share the near end never meet
(`EdgeKey.Meets.eq_of_near`).
-/

namespace ProgramGraph

open ProgramGraph.Text

namespace EdgeKey

/-- In a direction the ends of both edges are joined to one text, and the relation is the same. -/
def Meets (a b : EdgeKey) (direction : Direction) : Prop :=
  a.near direction ++ ":" ++ a.far direction = b.near direction ++ ":" ++ b.far direction ∧
    a.kind = b.kind

instance (a b : EdgeKey) (direction : Direction) : Decidable (a.Meets b direction) :=
  inferInstanceAs (Decidable (_ ∧ _))

/-- Edges that share the end at which they are looked up do not meet. -/
theorem Meets.eq_of_near {a b : EdgeKey} {direction : Direction} (h : a.Meets b direction)
    (hnear : a.near direction = b.near direction) : a = b := by
  obtain ⟨hjoined, hkind⟩ := h
  have hfar : a.far direction = b.far direction := by
    rw [hnear] at hjoined
    exact String.append_right_inj _ |>.mp hjoined
  obtain ⟨source, target, kind⟩ := a
  obtain ⟨source', target', kind'⟩ := b
  cases direction <;> simp_all [near, far]

end EdgeKey

/-- The slot of an edge at its end in a direction. -/
def Slot.edgeAt (key : EdgeKey) : Direction → Slot
  | .outgoing => .edge key
  | .incoming => .incoming key

theorem Slot.edgeAt_bytes_eq_iff (layout : KeyLayout) {a b : EdgeKey} {direction : Direction} :
    (edgeAt a direction).bytes layout = (edgeAt b direction).bytes layout ↔ a.Meets b direction := by
  cases direction
  · exact edge_bytes_eq_iff
  · exact incoming_bytes_eq_iff

theorem Slot.edgeAt_injective (direction : Direction) :
    Function.Injective fun key => edgeAt key direction := by
  cases direction
  · exact fun _ _ h => Slot.edge.inj h
  · exact fun _ _ h => Slot.incoming.inj h

/-! ## The edges in slots -/

namespace ByteMap

variable {m : ByteMap} {layout : KeyLayout} {filled : Slot → Option Stored} {direction : Direction}

/-- The edge that fills its slot in a direction. -/
def edgeIn (filled : Slot → Option Stored) (direction : Direction) (key : EdgeKey) : Option Edge :=
  match filled (.edgeAt key direction) with
  | some (.edge e) => some e
  | _ => none

theorem IsProper.edgeAt_eq (h : m.IsProper layout filled) (direction : Direction) (key : EdgeKey) :
    filled (.edgeAt key direction) = (edgeIn filled direction key).map .edge := by
  cases hv : filled (.edgeAt key direction) with
  | none => simp [edgeIn, hv]
  | some v =>
      have hsuits := h.suits hv
      cases v with
      | edge e => simp [edgeIn, hv]
      | _ => cases direction <;> exact hsuits.elim

theorem IsProper.key_eq (h : m.IsProper layout filled) {key : EdgeKey} {e : Edge}
    (he : edgeIn filled direction key = some e) : e.key = key := by
  have hv := h.edgeAt_eq direction key
  rw [he] at hv
  have hsuits := h.suits hv
  cases direction <;> exact hsuits

/-- Putting in an edge takes out those that meet it. -/
theorem edgeIn_withEdge (e : Edge) (direction : Direction) (key : EdgeKey) :
    edgeIn (withEdge layout e filled) direction key =
      if key = e.key then some e
      else if key.Meets e.key direction then none else edgeIn filled direction key := by
  have hslot : withEdge layout e filled (.edgeAt key direction) =
      filledAt layout (.edgeAt e.key direction) (.edge e) filled (.edgeAt key direction) := by
    cases direction
    · exact withEdge_edge e key
    · exact withEdge_incoming e key
  rw [edgeIn, hslot, filledAt]
  simp only [(Slot.edgeAt_injective direction).eq_iff, Slot.edgeAt_bytes_eq_iff]
  split_ifs <;> rfl

/-- The slots after an edge is deleted by its key. -/
def withoutEdge (layout : KeyLayout) (gone : EdgeKey) (filled : Slot → Option Stored) :
    Slot → Option Stored := fun s =>
  if s.bytes layout ∈ (Keyed.edgeSlots gone).map (·.bytes layout) then none else filled s

theorem IsProper.deleteEdge (h : m.IsProper layout filled) (gone : EdgeKey) :
    (m.writeAll (Keyed.edgeDeletes layout gone)).IsProper layout (withoutEdge layout gone filled) := by
  have hproper := h.deleteAll ((Keyed.edgeSlots gone).map (·.bytes layout))
  rw [List.map_map] at hproper
  exact hproper

/-- Deleting an edge takes out those that meet it. -/
theorem edgeIn_withoutEdge (gone : EdgeKey) (direction : Direction) (key : EdgeKey) :
    edgeIn (withoutEdge layout gone filled) direction key =
      if key.Meets gone direction then none else edgeIn filled direction key := by
  have hmem : (Slot.edgeAt key direction).bytes layout ∈ (Keyed.edgeSlots gone).map (·.bytes layout) ↔
      key.Meets gone direction := by
    have hslots : ∀ s : Slot, s.bytes layout ∈ (Keyed.edgeSlots gone).map (·.bytes layout) ↔
        s.bytes layout = (Slot.edge gone).bytes layout ∨
          s.bytes layout = (Slot.incoming gone).bytes layout ∨
            s.bytes layout = (Slot.edgeOfKind gone).bytes layout := fun s => by simp [Keyed.edgeSlots]
    have hother : ∀ {a b : Slot}, a.family ≠ b.family → ¬ a.bytes layout = b.bytes layout :=
      Slot.bytes_ne_of_family
    rw [← Slot.edgeAt_bytes_eq_iff layout, hslots]
    -- Of the three keys that are deleted only the one in the same family can be that of the slot.
    cases direction with
    | outgoing =>
        apply or_iff_left
        rintro (heq | heq) <;> exact hother (by simp [Slot.family, Slot.edgeAt]) heq
    | incoming =>
        apply (or_iff_right (hother (by simp [Slot.family, Slot.edgeAt]))).trans
        exact or_iff_left (hother (by simp [Slot.family, Slot.edgeAt]))
  rw [edgeIn]
  simp only [withoutEdge, hmem]
  split_ifs <;> rfl

end ByteMap

/-! ## The edges that a store shows -/

namespace Keyed

/-- The edges that the store finds at a node. -/
def edgesAt (k : Keyed) (id : String) : Direction → Outcome (List Edge)
  | .outgoing => k.edgesFrom id none none
  | .incoming => k.edgesTo id none

/-- The store finds the edge at its end in a direction. -/
def Shows (k : Keyed) (e : Edge) (direction : Direction) : Prop :=
  ∃ found, k.edgesAt (e.key.near direction) direction = .ok found ∧ e ∈ found

/-- The number of edges, of one relation or of all, is that of the edges found at their sources. -/
def CountsShown (k : Keyed) : Prop :=
  ∀ kind : Option EdgeKind, ∃ keys : List EdgeKey,
    Enumerates (fun key => (∃ d : Edge, d.key = key ∧ k.Shows d .outgoing) ∧
      ∀ relation ∈ kind, key.kind = relation) keys ∧ k.edgeCount kind = keys.length

variable {k : Keyed} {filled : Slot → Option Stored} {direction : Direction}

open ByteMap

theorem edgesAt_eq (h : k.entries.IsProper k.layout filled) (id : String) (direction : Direction) :
    ∃ keys, Enumerates (fun key =>
        (edgeIn filled direction key).isSome = true ∧ key.near direction = id) keys ∧
      k.edgesAt id direction = .ok (keys.filterMap (edgeIn filled direction)) := by
  cases direction with
  | outgoing =>
      obtain ⟨keys, hkeys, hfound⟩ := edgesFrom_eq h.toLists (h.edgeAt_eq .outgoing) h.key_eq id none none
      exact ⟨keys, hkeys.congr fun key => by simp [EdgeKey.near], hfound⟩
  | incoming =>
      obtain ⟨keys, hkeys, hfound⟩ := edgesTo_eq h.toLists (h.edgeAt_eq .incoming) h.key_eq id none
      exact ⟨keys, hkeys.congr fun key => by simp [EdgeKey.near], hfound⟩

/-- An edge is found if it fills its slot. -/
theorem shows_iff (h : k.entries.IsProper k.layout filled) {e : Edge} :
    k.Shows e direction ↔ edgeIn filled direction e.key = some e := by
  obtain ⟨keys, hkeys, hfound⟩ := edgesAt_eq h (e.key.near direction) direction
  constructor
  · rintro ⟨found, hall, he⟩
    obtain rfl := Except.ok.inj (hfound.symm.trans hall)
    obtain ⟨key, -, hedge⟩ := List.mem_filterMap.mp he
    rw [h.key_eq hedge]
    exact hedge
  · intro hedge
    refine ⟨_, hfound, List.mem_filterMap.mpr ⟨e.key, (hkeys.mem_iff _).mpr ⟨?_, rfl⟩, hedge⟩⟩
    rw [hedge]
    rfl

/-- **A tidy store counts what it shows.** -/
theorem IsTidy.countsShown (h : k.IsTidy) : k.CountsShown := by
  obtain ⟨filled, hfilled⟩ := h.entries
  have hproper := hfilled.toIsProper
  have hshown : ∀ key, (∃ d : Edge, d.key = key ∧ k.Shows d .outgoing) ↔
      (filled (.edge key)).isSome = true := fun key => by
    have hat : filled (.edge key) = _ := hproper.edgeAt_eq .outgoing key
    rw [hat, isSome_map, Option.isSome_iff_exists]
    constructor
    · rintro ⟨d, rfl, hd⟩
      exact ⟨d, (shows_iff hproper).mp hd⟩
    · rintro ⟨d, hd⟩
      obtain rfl := hproper.key_eq hd
      exact ⟨d, rfl, (shows_iff hproper).mpr hd⟩
  intro kind
  cases kind with
  | none =>
      obtain ⟨keys, hkeys, hcount⟩ := edgeCount_eq hfilled.toLists
      exact ⟨keys, hkeys.congr fun key => by rw [hshown]; simp, hcount⟩
  | some relation =>
      obtain ⟨keys, hkeys, hcount⟩ := edgeCount_kind_eq hfilled.toLists relation
      exact ⟨keys, hkeys.congr fun key => by rw [hshown, hfilled.paired]; simp, hcount⟩

/-! ## Saving and deleting an edge -/

variable {e d e' : Edge}

theorem Reachable.saveEdge (h : k.Reachable) (hread : e.ReadsAs d) : (k.saveEdge e).Reachable := by
  have hlasts : (Store.Operation.saveEdge e).Lasts := by
    refine ⟨fun e' he' => ?_, fun _ _ _ h => nomatch h⟩
    exact List.mem_singleton.mp he' ▸ ⟨d, hread⟩
  exact h.perform hlasts rfl

/-- What is collected is not found yet. -/
theorem shows_submit_of_isOpen (hopen : k.isOpen = true) (writes : List ByteWrite) :
    (k.submit writes).Shows e direction ↔ k.Shows e direction := by
  rw [submit_of_isOpen hopen]
  cases direction <;> rfl

/-- After an edge was put in, it is found, and of the others those that do not meet it. -/
theorem shows_edgeWrites_iff (h : k.entries.IsTidy k.layout filled) (hopen : k.isOpen = false)
    (hread : e.ReadsAs d) :
    (k.submit (edgeWrites k.layout 0 e)).Shows e' direction ↔
      if e'.key = e.key then d = e'
      else ¬ e'.key.Meets e.key direction ∧ edgeIn filled direction e'.key = some e' := by
  rw [submit_of_not_isOpen hopen]
  refine (shows_iff (k := { k with entries := _ }) (h.putEdge hread).toIsProper).trans ?_
  rw [edgeIn_withEdge, hread.key_eq]
  split_ifs with hkey hmeets
  · exact Option.some_inj
  · simp [hmeets]
  · simp [hmeets]

/-- After an edge was taken out, those are found that do not meet it. -/
theorem shows_edgeDeletes_iff (h : k.entries.IsTidy k.layout filled) (hopen : k.isOpen = false)
    (gone : EdgeKey) :
    (k.submit (edgeDeletes k.layout gone)).Shows e' direction ↔
      ¬ e'.key.Meets gone direction ∧ edgeIn filled direction e'.key = some e' := by
  rw [submit_of_not_isOpen hopen]
  refine (shows_iff (k := { k with entries := _ }) (h.toIsProper.deleteEdge gone)).trans ?_
  rw [edgeIn_withoutEdge]
  split_ifs with hmeets <;> simp [hmeets]

/-- **An edge survives another unless they meet.** In a store that can come about, let an edge be found at
its end in a direction. Another edge is saved, or deleted by its key. Inside a transaction nothing changes
yet. Otherwise the first edge is found as before if the two do not meet in that direction, and is gone if
they do. What is saved is found in both directions, and the store counts the edges that it finds. -/
theorem Reachable.shows_iff_not_meets (h : k.Reachable) (hread : e.ReadsAs d) (hne : e'.key ≠ e.key) :
    (∀ direction, k.Shows e' direction →
      ((k.saveEdge e).Shows e' direction ↔ k.isOpen = true ∨ ¬ e'.key.Meets e.key direction) ∧
      ∃ k', k.deleteEdge e.source e.target (some e.kind) = .ok k' ∧
        (k'.Shows e' direction ↔ k.isOpen = true ∨ ¬ e'.key.Meets e.key direction)) ∧
    (k.isOpen = false → ∀ direction, (k.saveEdge e).Shows d direction) ∧
    (k.saveEdge e).CountsShown := by
  obtain ⟨filled, hfilled⟩ := h.isTidy.entries
  have hsave : k.saveEdge e = k.submit (edgeWrites k.layout 0 e) := by
    rw [Keyed.saveEdge, expiry_eq h.isTidy.stays fun d heq => by cases heq]
  have hdelete : k.deleteEdge e.source e.target (some e.kind) =
      .ok (k.submit (edgeDeletes k.layout e.key)) := rfl
  refine ⟨fun direction hshown => ⟨?_, _, hdelete, ?_⟩, fun hopen direction => ?_,
    (h.saveEdge hread).isTidy.countsShown⟩
  · rw [hsave]
    cases hopen : k.isOpen with
    | true => simp [shows_submit_of_isOpen hopen, hshown]
    | false =>
        rw [shows_edgeWrites_iff hfilled hopen hread, if_neg hne, (shows_iff hfilled.toIsProper).mp hshown]
        simp
  · cases hopen : k.isOpen with
    | true => simp [shows_submit_of_isOpen hopen, hshown]
    | false =>
        rw [shows_edgeDeletes_iff hfilled hopen, (shows_iff hfilled.toIsProper).mp hshown]
        simp
  · rw [hsave, shows_edgeWrites_iff hfilled hopen hread, if_pos hread.key_eq]

/-- Two edges with colons in their ends meet under their sources, and not under their targets. -/
theorem Reachable.shows_iff_not_meets_colons :
    let e := Edge.ofCore "a:b" "c" (.plain .calls)
    let e' := Edge.ofCore "a" "b:c" (.plain .calls)
    let k := (ofEntries { KeyedSettings.standard with defaultLife := none } ∅ 0).saveEdge e'
    k.Reachable ∧ (∀ direction, k.Shows e'.reread direction) ∧
      ¬ (k.saveEdge e).Shows e'.reread .outgoing ∧ (k.saveEdge e).Shows e'.reread .incoming ∧
      (k.saveEdge e).CountsShown := by
  intro e e' k
  have he : e.ReadsAs e.reread := Edge.IsApart.readsAs (fun _ _ => rfl) (by decide +kernel)
  have he' : e'.ReadsAs e'.reread := Edge.IsApart.readsAs (fun _ _ => rfl) (by decide +kernel)
  have hfresh : (ofEntries { KeyedSettings.standard with defaultLife := none } ∅ 0).Reachable :=
    .fresh rfl 0
  have hk : k.Reachable := hfresh.saveEdge he'
  have hfirst : e.key ≠ e'.key := by decide +kernel
  have hsecond : e'.reread.key ≠ e.key := by decide +kernel
  obtain ⟨-, hshown, -⟩ := hfresh.shows_iff_not_meets he' hfirst
  obtain ⟨hkept, -, hcounts⟩ := hk.shows_iff_not_meets he hsecond
  have hmeets : e'.reread.key.Meets e.key .outgoing ∧ ¬ e'.reread.key.Meets e.key .incoming := by
    decide +kernel
  refine ⟨hk, hshown rfl, fun h => ?_, ?_, hcounts⟩
  · have hopen : k.isOpen = false := rfl
    have hapart := (hkept .outgoing (hshown rfl .outgoing)).1.mp h
    exact hapart.elim (fun h => by simp [hopen] at h) fun h => h hmeets.1
  · exact (hkept .incoming (hshown rfl .incoming)).1.mpr (.inr hmeets.2)

/-- The edge that was saved first is no longer found at its source, after the second was saved and after
the second is deleted, and only one edge is counted. -/
theorem saveEdge_overwrites_colons :
    let e := Edge.ofCore "a:b" "c" (.plain .calls)
    let e' := Edge.ofCore "a" "b:c" (.plain .calls)
    let k := (ofEntries { KeyedSettings.standard with defaultLife := none } ∅ 0).saveEdge e'
    let found (k : Keyed) := (k.edgesFrom "a" none none).toOption.map (List.map Edge.key)
    k.Reachable ∧ e'.key ≠ e.key ∧ found k = some [e'.key] ∧ found (k.saveEdge e) = some [] ∧
      (k.saveEdge e).edgeCount none = 1 ∧
      (k.deleteEdge e.source e.target (some e.kind)).toOption.map found = some (some []) := by
  intro e e' k found
  have hread : e'.ReadsAs e'.reread := Edge.IsApart.readsAs (fun _ _ => rfl) (by decide +kernel)
  refine ⟨Reachable.saveEdge (.fresh rfl 0) hread, ?_⟩
  simp only [found, k, e, e']
  simp only [edgesFrom, edgesUnder, edgeCount, liveUnder, ByteMap.scan_eq_filter]
  decide +kernel

end Keyed

end ProgramGraph
