import ProgramGraph.Proofs.Store.Slots

set_option autoImplicit false

/-! # Reading a keyed store

What a keyed store answers follows from its slots, as long as no two filled slots share a key. A
scan looks at the slots of one family: those of edges under their source, or those of edges under
their target. What it finds is looked at again, so that an edge of another node, whose identifier
begins with the one asked for, is left out.

An edge has a slot in each family. They may disagree, so each lemma takes the edges of the family
that it reads, as a function of their keys.
-/

namespace ProgramGraph.Keyed

open ProgramGraph.Text

variable {k : Keyed} {filled : Slot → Option Stored}

/-- The value of a key, or no bytes. -/
def payloadAt (k : Keyed) (key : Bytes) : Bytes := (k.live? key).getD []

theorem live?_of_isIn {key entry : Bytes} (hentry : k.entries[key]? = some entry) {v : Stored}
    (hin : v.IsIn entry) : ∃ payload, k.live? key = some payload ∧ entry = Envelope.pack 0 payload := by
  obtain ⟨payload, rfl, -⟩ := hin
  exact ⟨payload, by rw [live?, hentry, Option.bind_some, Envelope.unpack?_pack], rfl⟩

/-- A filled slot has a value. -/
theorem live?_eq (h : k.entries.Lists k.layout filled) {slot : Slot} {v : Stored}
    (hv : filled slot = some v) :
    k.live? (slot.bytes k.layout) = some (k.payloadAt (slot.bytes k.layout)) ∧
      v.IsIn (Envelope.pack 0 (k.payloadAt (slot.bytes k.layout))) := by
  obtain ⟨entry, hentry, hin⟩ := h.complete slot v hv
  obtain ⟨payload, hlive, rfl⟩ := live?_of_isIn hentry hin
  rw [payloadAt, hlive]
  exact ⟨rfl, hin⟩

theorem pack_injective {a b : Bytes} (h : Envelope.pack 0 a = Envelope.pack 0 b) : a = b :=
  List.append_cancel_left h

/-! ## Nodes -/

/-- The key of a node is that of no other slot. -/
theorem live?_node_none (h : k.entries.Lists k.layout filled) {id : String}
    (hv : filled (.node id) = none) : k.live? (k.layout.node id) = none := by
  cases hentry : k.entries[k.layout.node id]? with
  | none => rw [live?, hentry, Option.bind_none]
  | some entry =>
      obtain ⟨slot, v, hsome, hbytes, -⟩ := h.sound _ entry hentry
      rw [Slot.node_bytes_eq_iff.mp hbytes, hv] at hsome
      cases hsome

/-- The value of a node is the node. -/
theorem decodeNode_eq (h : k.entries.Lists k.layout filled) {id : String} {n : Node}
    (hn : filled (.node id) = some (.node n)) :
    k.live? (k.layout.node id) = some (k.payloadAt (k.layout.node id)) ∧
      decodeNode (k.payloadAt (k.layout.node id)) = .ok n := by
  obtain ⟨hlive, payload, hpack, hdecode⟩ := live?_eq h hn
  exact ⟨hlive, pack_injective hpack ▸ hdecode⟩

theorem node?_eq (h : k.entries.Lists k.layout filled) {id : String} {n? : Option Node}
    (hat : filled (.node id) = n?.map .node) : k.node? id = .ok n? := by
  unfold Keyed.node?
  cases n? with
  | none => rw [live?_node_none h hat]
  | some n =>
      obtain ⟨hlive, hdecode⟩ := decodeNode_eq h hat
      rw [hlive]
      show (decodeNode _).map some = _
      rw [hdecode]
      rfl

/-! ## Scans -/

/-- **The values under a beginning**, given the family of slots that it is for. -/
theorem liveUnder_eq (h : k.entries.Lists k.layout filled) {start : Bytes} {α : Type}
    {slotOf : α → Slot} (hinj : Function.Injective slotOf) {p : α → Prop}
    (hfamily : ∀ slot, start <+: slot.bytes k.layout ↔ ∃ a, p a ∧ slot = slotOf a) :
    ∃ as, Enumerates (fun a => (filled (slotOf a)).isSome = true ∧ p a) as ∧
      k.liveUnder start = as.map fun a =>
        ((slotOf a).bytes k.layout, k.payloadAt ((slotOf a).bytes k.layout)) := by
  obtain ⟨as, has, hkeys⟩ := h.keysUnder_eq hinj hfamily
  refine ⟨as, has, ?_⟩
  have hunder : k.liveUnder start =
      (k.entries.keysUnder start).filterMap fun key => (k.live? key).map (key, ·) := by
    refine (ByteMap.filterMap_scan k.entries start
      fun key entry => (Envelope.unpack? k.now entry).map (key, ·)).trans ?_
    refine List.filterMap_congr fun key _ => ?_
    rw [live?]
    cases k.entries[key]? <;> rfl
  rw [hunder, hkeys, List.filterMap_map, ← List.filterMap_eq_map]
  refine List.filterMap_congr fun a ha => ?_
  obtain ⟨v, hv⟩ := Option.isSome_iff_exists.mp ((has.mem_iff a).mp ha).1
  simp only [Function.comp_apply, (live?_eq h hv).1, Option.map_some]

/-! ## Nodes by kind -/

/-- Behind the beginning for a kind stands the identifier. -/
theorem drop_start_kind (layout : KeyLayout) (kind : NodeKind) (id : String) :
    ((Slot.nodeOfKind kind id).bytes layout).drop (layout.start ["type", kind.name]).length = utf8 id := by
  have hbytes : (Slot.nodeOfKind kind id).bytes layout = layout.start ["type", kind.name] ++ utf8 id := by
    show layout.key ["type", kind.name, id] = _
    rw [KeyLayout.key_eq, KeyLayout.start_eq]
    simp [marked]
  rw [hbytes, List.drop_left]

/-- The identifiers under a kind are those with a mark there, and they are counted. -/
theorem idsOfKind_eq (h : k.entries.Lists k.layout filled) (kind : NodeKind) :
    Enumerates (fun id => (filled (.nodeOfKind kind id)).isSome = true) (k.idsOfKind kind) ∧
      k.nodeCount (some kind) = (k.idsOfKind kind).length := by
  have hfamily : ∀ slot : Slot, k.layout.start ["type", kind.name] <+: slot.bytes k.layout ↔
      ∃ id, True ∧ slot = .nodeOfKind kind id := fun slot => by
    rw [Slot.start_kind_isPrefix]
    simp
  obtain ⟨ids, hids, hunder⟩ := liveUnder_eq h (fun _ _ heq => (Slot.nodeOfKind.inj heq).2) hfamily
  have hsame : k.idsOfKind kind = ids := by
    unfold idsOfKind
    dsimp only
    rw [hunder, List.filterMap_map]
    refine (List.filterMap_congr fun id _ => ?_).trans List.filterMap_some
    rw [Function.comp_apply]
    dsimp only
    rw [drop_start_kind, ofUtf8?_utf8]
  refine ⟨hsame ▸ hids.congr fun id => and_iff_left trivial, ?_⟩
  show (k.liveUnder (k.layout.start ["type", kind.name])).length = _
  rw [hunder, List.length_map, hsame]

/-- If no identifier stands under two kinds, the lists under the kinds are one list together. -/
theorem enumerates_flatMap_kinds {p : NodeKind → String → Prop} {ids : NodeKind → List String}
    (hids : ∀ kind, Enumerates (p kind) (ids kind)) (hone : ∀ {a b id}, p a id → p b id → a = b) :
    Enumerates (fun id => ∃ kind, p kind id) (NodeKind.all.flatMap ids) where
  nodup := by
    have hdistinct : NodeKind.all.Pairwise (· ≠ ·) := by decide
    refine List.nodup_flatMap.mpr ⟨fun kind _ => (hids kind).nodup, hdistinct.imp fun {a b} hne => ?_⟩
    intro id ha hb
    exact hne (hone (((hids a).mem_iff id).mp ha) (((hids b).mem_iff id).mp hb))
  mem_iff id := by
    have hall : ∀ kind : NodeKind, kind ∈ NodeKind.all := fun kind => by cases kind <;> decide
    rw [List.mem_flatMap]
    constructor
    · rintro ⟨kind, -, hid⟩
      exact ⟨kind, ((hids kind).mem_iff id).mp hid⟩
    · rintro ⟨kind, hid⟩
      exact ⟨kind, hall kind, ((hids kind).mem_iff id).mpr hid⟩

/-- The identifiers under a kind, or under every kind, in ascending order. -/
def sortedIds (k : Keyed) (kind : Option NodeKind) : List String :=
  ((kind.elim NodeKind.all List.singleton).flatMap k.idsOfKind).mergeSort fun a b => a ≤ b

theorem sortedIds_perm (k : Keyed) (kind : Option NodeKind) :
    (k.sortedIds kind).Perm ((kind.elim NodeKind.all List.singleton).flatMap k.idsOfKind) :=
  List.mergeSort_perm _ _

theorem sortedIds_ascend (k : Keyed) (kind : Option NodeKind) : (k.sortedIds kind).Pairwise (· ≤ ·) := by
  refine (@List.pairwise_mergeSort String (fun a b => a ≤ b) ?_ ?_ _).imp fun h => by simpa using h
  · intro a b c hab hbc
    simp only [decide_eq_true_eq] at hab hbc ⊢
    exact String.le_trans hab hbc
  · intro a b
    simp only [Bool.or_eq_true, decide_eq_true_eq]
    exact String.le_total a b

variable {node? : String → Option Node}

/-- Nodes are looked up by the identifiers under the kind. -/
theorem findNodes_eq_mapM (k : Keyed) (kind : Option NodeKind) (filter : Filter) (limit : Option Nat)
    (offset : Nat) :
    k.findNodes kind filter limit offset =
      (((k.sortedIds kind).filterMap fun id => k.live? (k.layout.node id)).mapM decodeNode).map
        (pageOf filter limit offset) := by
  have hpayloads : (k.entries.getMany ((k.sortedIds kind).map k.layout.node)).filterMap
      (fun entry => entry.bind (Envelope.unpack? k.now)) =
        (k.sortedIds kind).filterMap fun id => k.live? (k.layout.node id) := by
    rw [ByteMap.getMany, List.map_map, List.filterMap_map]
    rfl
  rw [← hpayloads]
  rfl

/-- An identifier without a node is passed over. -/
theorem mapM_decodeNode_eq (h : k.entries.Lists k.layout filled)
    (hat : ∀ id, filled (.node id) = (node? id).map .node) (ids : List String) :
    (ids.filterMap fun id => k.live? (k.layout.node id)).mapM decodeNode = .ok (ids.filterMap node?) := by
  induction ids with
  | nil => rfl
  | cons id rest ih =>
      rw [List.filterMap_cons, List.filterMap_cons]
      -- An identifier with a mark may have lost its node. It then has no value to be decoded.
      cases hn : node? id with
      | none =>
          have hnone : k.live? (k.layout.node id) = none := live?_node_none h (by rw [hat, hn]; rfl)
          rw [hnone]
          exact ih
      | some n =>
          have hfilled : filled (.node id) = some (.node n) := by
            rw [hat, hn]
            rfl
          obtain ⟨hlive, hdecode⟩ := decodeNode_eq h hfilled
          rw [hlive]
          dsimp only
          rw [List.mapM_cons, hdecode, ih]
          rfl

/-- **The nodes found** are those of the identifiers under the kind. -/
theorem findNodes_eq (h : k.entries.Lists k.layout filled)
    (hat : ∀ id, filled (.node id) = (node? id).map .node) (kind : Option NodeKind) (filter : Filter)
    (limit : Option Nat) (offset : Nat) :
    k.findNodes kind filter limit offset =
      .ok (pageOf filter limit offset ((k.sortedIds kind).filterMap node?)) := by
  rw [findNodes_eq_mapM, mapM_decodeNode_eq h hat]
  rfl

/-- The number of nodes, by their slots. -/
theorem nodeCount_eq (h : k.entries.Lists k.layout filled) :
    ∃ ids, Enumerates (fun id => (filled (.node id)).isSome = true) ids ∧ k.nodeCount none = ids.length := by
  have hfamily : ∀ slot : Slot, k.layout.start ["node"] <+: slot.bytes k.layout ↔
      ∃ id, True ∧ slot = .node id := fun slot => by
    rw [Slot.start_node_isPrefix]
    simp
  obtain ⟨ids, hids, hunder⟩ := liveUnder_eq h (fun _ _ heq => Slot.node.inj heq) hfamily
  refine ⟨ids, hids.congr fun id => and_iff_left trivial, ?_⟩
  show (k.liveUnder (k.layout.start ["node"])).length = _
  rw [hunder, List.length_map]

/-! ## Edges -/

theorem edge_injective : Function.Injective Slot.edge := fun _ _ h => Slot.edge.inj h

theorem incoming_injective : Function.Injective Slot.incoming := fun _ _ h => Slot.incoming.inj h

theorem isSome_map {α β : Type} (f : α → β) (x : Option α) : (x.map f).isSome = x.isSome := by
  cases x <;> rfl

variable {edge? : EdgeKey → Option Edge}

/-- The edges under a beginning, if it is one for edges: those whose slots it meets. -/
theorem edgesUnder_eq (h : k.entries.Lists k.layout filled) (start : Bytes)
    {slotOf : EdgeKey → Slot} (hinj : Function.Injective slotOf)
    (hat : ∀ key, filled (slotOf key) = (edge? key).map .edge)
    (hfamily : ∀ slot : Slot, start <+: slot.bytes k.layout → ∃ key, slot = slotOf key) :
    ∃ keys, Enumerates (fun key => (edge? key).isSome = true ∧ start <+: (slotOf key).bytes k.layout) keys ∧
      k.edgesUnder start = .ok (keys.filterMap edge?) := by
  have hslots : ∀ slot : Slot, start <+: slot.bytes k.layout ↔
      ∃ key, start <+: (slotOf key).bytes k.layout ∧ slot = slotOf key := fun slot => by
    constructor
    · intro hstart
      obtain ⟨key, rfl⟩ := hfamily slot hstart
      exact ⟨key, hstart, rfl⟩
    · rintro ⟨key, hstart, rfl⟩
      exact hstart
  -- The slots that begin so are those of some edges, and each of them holds an edge.
  obtain ⟨keys, hkeys, hunder⟩ := liveUnder_eq h hinj hslots
  have hmem : ∀ key ∈ keys, ∃ e, edge? key = some e ∧
      decodeEdge (k.payloadAt ((slotOf key).bytes k.layout)) = .ok e := by
    intro key hkey
    have hsome := ((hkeys.mem_iff key).mp hkey).1
    rw [hat, isSome_map] at hsome
    obtain ⟨e, he⟩ := Option.isSome_iff_exists.mp hsome
    have hv : filled (slotOf key) = some (.edge e) := by
      rw [hat, he]
      rfl
    obtain ⟨-, payload, hpack, hdecode⟩ := live?_eq h hv
    exact ⟨e, he, pack_injective hpack ▸ hdecode⟩
  refine ⟨keys, hkeys.congr fun key => by rw [hat, isSome_map], ?_⟩
  rw [edgesUnder, hunder, List.mapM_map]
  refine (mapM_eq_readable fun key hkey => ?_).trans (congrArg Except.ok ?_)
  · obtain ⟨e, -, hdecode⟩ := hmem key hkey
    exact ⟨e, hdecode⟩
  · refine List.filterMap_congr fun key hkey => ?_
    obtain ⟨e, he, hdecode⟩ := hmem key hkey
    show (decodeEdge _).toOption = _
    rw [hdecode, he]
    rfl

theorem filter_edges (hkey : ∀ {key e}, edge? key = some e → e.key = key) (keys : List EdgeKey)
    (selected : EdgeKey → Bool) :
    (keys.filterMap edge?).filter (fun e => selected e.key) = (keys.filter selected).filterMap edge? := by
  induction keys with
  | nil => rfl
  | cons key rest ih =>
      cases he : edge? key with
      | none => by_cases hs : selected key = true <;> simp [he, hs, ih]
      | some e =>
          have hkey := hkey he
          by_cases hs : selected key = true <;> simp [he, hkey, hs, ih]

/-- The edges that leave a node. -/
theorem edgesFrom_eq (h : k.entries.Lists k.layout filled)
    (hat : ∀ key, filled (.edge key) = (edge? key).map .edge)
    (hkey : ∀ {key e}, edge? key = some e → e.key = key) (source : String) (target : Option String)
    (kind : Option EdgeKind) :
    ∃ keys, Enumerates (fun key => (edge? key).isSome = true ∧ (key.source = source &&
        (target.all fun t => key.target = t) && kind.all fun k => key.kind = k) = true) keys ∧
      k.edgesFrom source target kind = .ok (keys.filterMap edge?) := by
  obtain ⟨keys, hkeys, hunder⟩ := edgesUnder_eq h
    (k.layout.start ("edges" :: source :: target.toList)) edge_injective hat
    fun _ => Slot.edge_of_start_isPrefix
  refine ⟨keys.filter fun key => key.source = source && (target.all fun t => key.target = t) &&
    kind.all fun k => key.kind = k, ⟨hkeys.nodup.filter _, fun key => ?_⟩, ?_⟩
  · rw [List.mem_filter, hkeys.mem_iff, and_assoc]
    refine and_congr_right fun _ => and_iff_right_of_imp fun hselected => ?_
    simp only [Bool.and_eq_true, decide_eq_true_eq] at hselected
    obtain ⟨⟨rfl, htarget⟩, -⟩ := hselected
    exact Slot.start_source_isPrefix key htarget
  · rw [← filter_edges hkey, edgesFrom, hunder]
    rfl

/-- The edges that reach a node. -/
theorem edgesTo_eq (h : k.entries.Lists k.layout filled)
    (hat : ∀ key, filled (.incoming key) = (edge? key).map .edge)
    (hkey : ∀ {key e}, edge? key = some e → e.key = key) (target : String) (kind : Option EdgeKind) :
    ∃ keys, Enumerates (fun key => (edge? key).isSome = true ∧
        (key.target = target && kind.all fun k => key.kind = k) = true) keys ∧
      k.edgesTo target kind = .ok (keys.filterMap edge?) := by
  obtain ⟨keys, hkeys, hunder⟩ := edgesUnder_eq h (k.layout.start ["incoming", target])
    incoming_injective hat fun _ => Slot.incoming_of_start_isPrefix
  refine ⟨keys.filter fun key => key.target = target && kind.all fun k => key.kind = k,
    ⟨hkeys.nodup.filter _, fun key => ?_⟩, ?_⟩
  · rw [List.mem_filter, hkeys.mem_iff, and_assoc]
    refine and_congr_right fun _ => and_iff_right_of_imp fun hselected => ?_
    simp only [Bool.and_eq_true, decide_eq_true_eq] at hselected
    obtain ⟨rfl, -⟩ := hselected
    exact Slot.start_target_isPrefix key
  · rw [← filter_edges hkey, edgesTo, hunder]
    rfl

/-- The number of edges, by their slots. -/
theorem edgeCount_eq (h : k.entries.Lists k.layout filled) :
    ∃ keys, Enumerates (fun key => (filled (.edge key)).isSome = true) keys ∧
      k.edgeCount none = keys.length := by
  have hfamily : ∀ slot : Slot, k.layout.start ["edges"] <+: slot.bytes k.layout ↔
      ∃ key, True ∧ slot = .edge key := fun slot => by
    rw [Slot.start_edges_isPrefix]
    simp
  obtain ⟨keys, hkeys, hunder⟩ := liveUnder_eq h edge_injective hfamily
  refine ⟨keys, hkeys.congr fun key => and_iff_left trivial, ?_⟩
  show (k.liveUnder (k.layout.start ["edges"])).length = _
  rw [hunder, List.length_map]

/-- The number of edges of a relation, by their slots under it. -/
theorem edgeCount_kind_eq (h : k.entries.Lists k.layout filled) (kind : EdgeKind) :
    ∃ keys, Enumerates (fun key => (filled (.edgeOfKind key)).isSome = true ∧ key.kind = kind) keys ∧
      k.edgeCount (some kind) = keys.length := by
  have hfamily : ∀ slot : Slot, k.layout.start ["edge_type", kind.name] <+: slot.bytes k.layout ↔
      ∃ key : EdgeKey, key.kind = kind ∧ slot = .edgeOfKind key := fun slot => by
    rw [Slot.start_relation_isPrefix]
  obtain ⟨keys, hkeys, hunder⟩ := liveUnder_eq h (fun _ _ heq => Slot.edgeOfKind.inj heq) hfamily
  refine ⟨keys, hkeys, ?_⟩
  show (k.liveUnder (k.layout.start ["edge_type", kind.name])).length = _
  rw [hunder, List.length_map]

end ProgramGraph.Keyed
