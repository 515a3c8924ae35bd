import ProgramGraph.Proofs.Property.Core
import ProgramGraph.Proofs.Property.Reread
import ProgramGraph.Store.Keyed
import ProgramGraph.Store.Rows

set_option autoImplicit false

/-! # Stored records are read again

A table store keeps the properties of a record as JSON text and a keyed store the whole record
in the binary encoding. Either way a node is read as `Node.reread`, and an edge as `Edge.reread`.
-/

namespace ProgramGraph

open ProgramGraph.Wire

/-! ## Rows -/

theorem Properties.KeepsFloats.readProperties {props : Properties} (h : props.KeepsFloats) :
    readProperties (Json.print props.toWire) = .ok props.rebuilt := by
  rw [ProgramGraph.readProperties, h.parse?]

/-- Fields of a core are no floats: a float is an extra property. -/
theorem Fields.Within.float_of_putOver {fields : Fields} {keys : List String} {extra : Properties}
    (hfields : fields.Within keys) (hnone : ∀ entry ∈ fields, ∀ x, entry.2 ≠ .float x)
    {key : String} {x : Binary64} (h : (fields.putOver extra)[key]? = some (.float x)) :
    extra[key]? = some (.float x) := by
  rw [hfields.getElem?_putOver] at h
  cases hlookup : fields.lookup key with
  | none => rwa [hlookup, Option.none_or] at h
  | some value =>
      obtain rfl : value = .float x := by simpa [hlookup] using h
      exact absurd rfl
        (hnone _ ((lookup_eq_some_of_distinct hfields.distinct).mp hlookup) x)

theorem NodeCore.fields_ne_float (core : NodeCore) :
    ∀ entry ∈ core.fields, ∀ x, entry.2 ≠ .float x := by
  rcases core with _ | _ | ⟨_, _, _, _, _ | _, _, _ | _, _⟩ | _ | _ <;>
    simp [fields, Fields.optional]

theorem EdgeCore.fields_ne_float (core : EdgeCore) :
    ∀ entry ∈ core.fields, ∀ x, entry.2 ≠ .float x := by
  rcases core with ⟨_ | _⟩ | ⟨_ | _, _, _ | _⟩ | _ | ⟨_, _ | _, _ | _⟩ | ⟨_, _ | _⟩ | ⟨_, _ | _⟩ <;>
    simp [fields, Fields.optional]

/-- **A node is read again from its row.** -/
theorem Node.IsApart.toNode_ofNode {n : Node} (h : n.IsApart) (hfloats : n.extra.KeepsFloats) :
    (NodeRow.ofNode n).toNode n.id = .ok n.reread := by
  have hkept : n.properties.KeepsFloats := fun key x h =>
    hfloats key x (n.core.within_fields.float_of_putOver n.core.fields_ne_float h)
  unfold NodeRow.toNode NodeRow.ofNode
  rw [hkept.readProperties]
  exact h.ofRecord_rebuilt

/-- **An edge is read again from its row.** -/
theorem Edge.IsApart.toEdge_print {e : Edge} (h : e.IsApart) (hfloats : e.extra.KeepsFloats)
    (sequence : Nat) :
    (⟨sequence, Json.print e.properties.toWire⟩ : EdgeRow).toEdge e.key = .ok e.reread := by
  have hkept : e.properties.KeepsFloats := fun key x h =>
    hfloats key x (e.core.within_fields.float_of_putOver e.core.fields_ne_float h)
  unfold EdgeRow.toEdge
  rw [hkept.readProperties]
  exact h.ofRecord_rebuilt

/-! ## Payloads -/

theorem case?_nodeKind (encoding : Encoding) (kind : NodeKind) :
    Value.case? encoding NodeKind.named (.text kind.name) = some kind := by
  cases kind <;> rfl

theorem case?_edgeKind (encoding : Encoding) (kind : EdgeKind) :
    Value.case? encoding EdgeKind.named (.text kind.name) = some kind := by
  cases kind <;> rfl

/-- The members of a written node. -/
theorem members?_node (id kind properties : Value) :
    (Value.map [(.name "id", id), (.name "type", kind), (.name "properties", properties)]).members?
        [["id"], ["type"], ["properties"]] =
      some [("id", id), ("type", kind), ("properties", properties)] := rfl

/-- The members of a written edge. -/
theorem members?_edge (source target kind properties : Value) :
    (Value.map [(.name "source", source), (.name "target", target), (.name "type", kind),
        (.name "properties", properties)]).members?
        [["source"], ["target"], ["type"], ["properties"]] =
      some [("source", source), ("target", target), ("type", kind), ("properties", properties)] := rfl

/-- A node record in the binary encoding. -/
theorem NodeRecord.ofWire?_reread (r : NodeRecord) (encoding : Encoding) :
    ofWire? encoding (MsgPack.reread r.toWire) = some ⟨r.id, r.kind, r.properties.rebuilt⟩ := by
  have hform : MsgPack.reread r.toWire =
      .map [(.name "id", .text r.id), (.name "type", .text r.kind.name),
        (.name "properties", MsgPack.reread r.properties.toWire)] := by
    simp only [toWire, MsgPack.reread, MsgPack.rereadEntries]
  rw [hform, ofWire?, members?_node]
  show (do
    let id ← Value.text? (.text r.id)
    let kind ← Value.case? encoding NodeKind.named (.text r.kind.name)
    let properties ← Properties.ofWire? (MsgPack.reread r.properties.toWire)
    pure (⟨id, kind, properties⟩ : NodeRecord)) = _
  rw [case?_nodeKind, Properties.ofWire?_reread]
  rfl

/-- An edge record in the binary encoding. -/
theorem EdgeRecord.ofWire?_reread (r : EdgeRecord) (encoding : Encoding) :
    ofWire? encoding (MsgPack.reread r.toWire) =
      some ⟨r.source, r.target, r.kind, r.properties.rebuilt⟩ := by
  have hform : MsgPack.reread r.toWire =
      .map [(.name "source", .text r.source), (.name "target", .text r.target),
        (.name "type", .text r.kind.name),
        (.name "properties", MsgPack.reread r.properties.toWire)] := by
    simp only [toWire, MsgPack.reread, MsgPack.rereadEntries]
  rw [hform, ofWire?, members?_edge]
  show (do
    let source ← Value.text? (.text r.source)
    let target ← Value.text? (.text r.target)
    let kind ← Value.case? encoding EdgeKind.named (.text r.kind.name)
    let properties ← Properties.ofWire? (MsgPack.reread r.properties.toWire)
    pure (⟨source, target, kind, properties⟩ : EdgeRecord)) = _
  rw [case?_edgeKind, Properties.ofWire?_reread]
  rfl

/-! ## Lengths -/

open Text

/-- The binary encoding has forms for texts, lists and maps below a length only. -/
def Property.IsShort : Property → Prop
  | .text s => (utf8 s).length < 2 ^ 32
  | .texts items => items.length < 2 ^ 32 ∧ ∀ s ∈ items, (utf8 s).length < 2 ^ 32
  | _ => True

instance (p : Property) : Decidable p.IsShort :=
  match p with
  | .text s => inferInstanceAs (Decidable ((utf8 s).length < 2 ^ 32))
  | .texts items =>
      inferInstanceAs (Decidable (items.length < 2 ^ 32 ∧ ∀ s ∈ items, (utf8 s).length < 2 ^ 32))
  | .null | .bool _ | .int _ | .float _ => inferInstanceAs (Decidable True)

/-- It has one for the map of the properties, for their names and for their values. -/
structure Properties.AreShort (props : Properties) : Prop where
  size : props.toList.length < 2 ^ 32
  entries : ∀ entry ∈ props.toList, (utf8 entry.1).length < 2 ^ 32 ∧ entry.2.IsShort

instance (props : Properties) : Decidable props.AreShort :=
  decidable_of_iff (props.toList.length < 2 ^ 32 ∧
    ∀ entry ∈ props.toList, (utf8 entry.1).length < 2 ^ 32 ∧ entry.2.IsShort)
    ⟨fun h => ⟨h.1, h.2⟩, fun h => ⟨h.size, h.entries⟩⟩

/-- The binary encoding has a form for the node. -/
structure Node.Fits (n : Node) : Prop where
  id : (utf8 n.id).length < 2 ^ 32
  properties : n.properties.AreShort

instance (n : Node) : Decidable n.Fits :=
  decidable_of_iff ((utf8 n.id).length < 2 ^ 32 ∧ n.properties.AreShort)
    ⟨fun h => ⟨h.1, h.2⟩, fun h => ⟨h.id, h.properties⟩⟩

/-- The binary encoding has a form for the edge. -/
structure Edge.Fits (e : Edge) : Prop where
  source : (utf8 e.source).length < 2 ^ 32
  target : (utf8 e.target).length < 2 ^ 32
  properties : e.properties.AreShort

instance (e : Edge) : Decidable e.Fits :=
  decidable_of_iff ((utf8 e.source).length < 2 ^ 32 ∧ (utf8 e.target).length < 2 ^ 32 ∧
    e.properties.AreShort)
    ⟨fun h => ⟨h.1, h.2.1, h.2.2⟩, fun h => ⟨h.source, h.target, h.properties⟩⟩

/-- The binary encoding has forms for the nodes and edges. -/
structure Graph.Fits (g : Graph) : Prop where
  nodes : ∀ n ∈ g.nodeList, n.Fits
  edges : ∀ e ∈ g.edgeList, e.Fits

instance (g : Graph) : Decidable g.Fits :=
  decidable_of_iff ((∀ n ∈ g.nodeList, n.Fits) ∧ ∀ e ∈ g.edgeList, e.Fits)
    ⟨fun h => ⟨h.1, h.2⟩, fun h => ⟨h.nodes, h.edges⟩⟩

theorem Property.IsShort.fits {p : Property} (h : p.IsShort) (depth : Nat) :
    MsgPack.Fits (depth + 1) p.toWire := by
  cases p with
  | null => exact .null _
  | bool b => exact .bool _ b
  | int n =>
      have hlow := Int64.minValue_le_toInt n
      have hhigh := Int64.toInt_lt n
      exact .integer _ (by simpa using hlow) (by omega)
  | float x => exact .float _ x
  | text s => exact .text _ h
  | texts items =>
      refine .list (by simpa using h.1) fun v hv => ?_
      obtain ⟨s, hs, rfl⟩ := List.mem_map.mp hv
      exact .text _ (h.2 s hs)

theorem Properties.AreShort.fits {props : Properties} (h : props.AreShort) (depth : Nat) :
    MsgPack.Fits (depth + 2) props.toWire := by
  refine .map (by simpa using h.size) (fun entry hentry => ?_) fun entry hentry => ?_
  · obtain ⟨⟨key, value⟩, hmem, rfl⟩ := List.mem_map.mp hentry
    exact ⟨key, rfl, (h.entries _ hmem).1⟩
  · obtain ⟨⟨key, value⟩, hmem, rfl⟩ := List.mem_map.mp hentry
    exact (h.entries _ hmem).2.fits depth

theorem Node.Fits.fits {n : Node} (h : n.Fits) (depth : Nat) : MsgPack.Fits (depth + 3) n.toWire := by
  have hkind : (utf8 n.kind.name).length < 2 ^ 32 := by cases n.kind <;> decide +kernel
  refine .map (by simp) (fun entry hentry => ?_) fun entry hentry => ?_
  · simp only [List.mem_cons, List.not_mem_nil, or_false] at hentry
    rcases hentry with rfl | rfl | rfl <;> exact ⟨_, rfl, by decide +kernel⟩
  · simp only [List.mem_cons, List.not_mem_nil, or_false] at hentry
    rcases hentry with rfl | rfl | rfl
    · exact .text _ h.id
    · exact .text _ hkind
    · exact h.properties.fits depth

theorem Edge.Fits.fits {e : Edge} (h : e.Fits) (depth : Nat) : MsgPack.Fits (depth + 3) e.toWire := by
  have hkind : (utf8 e.kind.name).length < 2 ^ 32 := by cases e.kind <;> decide +kernel
  refine .map (by simp) (fun entry hentry => ?_) fun entry hentry => ?_
  · simp only [List.mem_cons, List.not_mem_nil, or_false] at hentry
    rcases hentry with rfl | rfl | rfl | rfl <;> exact ⟨_, rfl, by decide +kernel⟩
  · simp only [List.mem_cons, List.not_mem_nil, or_false] at hentry
    rcases hentry with rfl | rfl | rfl | rfl
    · exact .text _ h.source
    · exact .text _ h.target
    · exact .text _ hkind
    · exact h.properties.fits depth

/-! ## Payloads -/

/-- **A node is read again from its payload.** -/
theorem Node.IsApart.decodeNode_encode {n : Node} (h : n.IsApart) (hfits : n.Fits) :
    Keyed.decodeNode (MsgPack.encode n.toWire) = .ok n.reread := by
  have hread : (MsgPack.decode? (MsgPack.encode n.toWire)).bind (Node.ofWire? .positional) =
      some n.reread := by
    rw [MsgPack.decode?_encode (hfits.fits 1020), Option.bind_some]
    show (NodeRecord.ofWire? .positional (MsgPack.reread n.record.toWire)).bind _ = _
    rw [NodeRecord.ofWire?_reread, Option.bind_some]
    exact congrArg Except.toOption h.ofRecord_rebuilt
  rw [Keyed.decodeNode, hread]

/-- The payload of a node is read as a node with the same identifier and kind. -/
structure Node.ReadsAs (n d : Node) : Prop where
  decodes : Keyed.decodeNode (MsgPack.encode n.toWire) = .ok d
  id_eq : d.id = n.id
  kind_eq : d.kind = n.kind

theorem Node.IsApart.readsAs {n : Node} (h : n.IsApart) (hfits : n.Fits) : n.ReadsAs n.reread :=
  ⟨h.decodeNode_encode hfits, rfl, rfl⟩

/-- If the payload of a node can be read at all, its identifier and kind come back. -/
theorem Node.Fits.readsAs {n d : Node} (h : n.Fits)
    (hdecodes : Keyed.decodeNode (MsgPack.encode n.toWire) = .ok d) : n.ReadsAs d := by
  have hdecode : (MsgPack.decode? (MsgPack.encode n.toWire)).bind (Node.ofWire? .positional) =
      (ofRecord ⟨n.id, n.kind, n.properties.rebuilt⟩).toOption := by
    rw [MsgPack.decode?_encode (h.fits 1020), Option.bind_some]
    show (NodeRecord.ofWire? .positional (MsgPack.reread n.record.toWire)).bind _ = _
    rw [NodeRecord.ofWire?_reread, Option.bind_some]
    rfl
  have hread := hdecodes
  rw [Keyed.decodeNode, hdecode] at hread
  cases hrecord : ofRecord ⟨n.id, n.kind, n.properties.rebuilt⟩ with
  | error failure => simp [hrecord, Except.toOption] at hread
  | ok read =>
      rw [hrecord] at hread
      obtain rfl := Except.ok.inj hread
      obtain ⟨hid, hkind⟩ := Node.ofProperties_eq_ok hrecord
      exact ⟨hdecodes, hid, hkind⟩

/-- An edge that fits is read from the new map of its properties. -/
theorem Edge.Fits.decode?_eq {e : Edge} (h : e.Fits) :
    (MsgPack.decode? (MsgPack.encode e.toWire)).bind (Edge.ofWire? .positional) =
      (ofRecord ⟨e.source, e.target, e.kind, e.properties.rebuilt⟩).toOption := by
  rw [MsgPack.decode?_encode (h.fits 1020), Option.bind_some]
  show (EdgeRecord.ofWire? .positional (MsgPack.reread e.record.toWire)).bind _ = _
  rw [EdgeRecord.ofWire?_reread, Option.bind_some]
  rfl

/-- **An edge is read again from its payload.** -/
theorem Edge.IsApart.decodeEdge_encode {e : Edge} (h : e.IsApart) (hfits : e.Fits) :
    Keyed.decodeEdge (MsgPack.encode e.toWire) = .ok e.reread := by
  rw [Keyed.decodeEdge, hfits.decode?_eq, h.ofRecord_rebuilt]
  rfl

/-- The payload of an edge is read as an edge with the same key. -/
structure Edge.ReadsAs (e d : Edge) : Prop where
  decodes : Keyed.decodeEdge (MsgPack.encode e.toWire) = .ok d
  key_eq : d.key = e.key

/-- If the payload can be read at all, the key comes back. -/
theorem Edge.Fits.readsAs {e d : Edge} (h : e.Fits)
    (hdecodes : Keyed.decodeEdge (MsgPack.encode e.toWire) = .ok d) : e.ReadsAs d := by
  refine ⟨hdecodes, ?_⟩
  rw [Keyed.decodeEdge, h.decode?_eq] at hdecodes
  cases hrecord : ofRecord ⟨e.source, e.target, e.kind, e.properties.rebuilt⟩ with
  | error failure => simp [hrecord, Except.toOption] at hdecodes
  | ok read =>
      rw [hrecord] at hdecodes
      obtain rfl := Except.ok.inj hdecodes
      exact Edge.ofProperties_eq_ok hrecord

theorem Edge.IsApart.readsAs {e : Edge} (h : e.IsApart) (hfits : e.Fits) : e.ReadsAs e.reread :=
  hfits.readsAs (h.decodeEdge_encode hfits)

/-! ## Envelopes -/

/-- What is packed is there until its moment, which is never if it is zero. -/
theorem Envelope.unpack?_pack_eq (now expiry : UInt64) (payload : Text.Bytes) :
    unpack? now (pack expiry payload) = if expiry ≠ 0 ∧ expiry ≤ now then none else some payload := by
  have hlength : (MsgPack.bigEndian size expiry.toNat).length = size := MsgPack.length_bigEndian _ _
  have htake : (pack expiry payload).take size = MsgPack.bigEndian size expiry.toNat := by
    rw [pack, List.take_left' hlength]
  have hdrop : (pack expiry payload).drop size = payload := by rw [pack, List.drop_left' hlength]
  have hmoment : MsgPack.natOfBytes (MsgPack.bigEndian size expiry.toNat) = expiry.toNat :=
    MsgPack.natOfBytes_bigEndian expiry.toNat_lt
  have hzero : expiry.toNat = 0 ↔ expiry = 0 := @UInt64.toNat_inj expiry 0
  simp only [unpack?, htake, hdrop, hlength, hmoment, Nat.lt_irrefl, if_false, Bool.and_eq_true,
    decide_eq_true_eq, ne_eq, hzero, UInt64.le_iff_toNat_le]

/-- What is packed without an end is there at every moment. -/
theorem Envelope.unpack?_pack (now : UInt64) (payload : Text.Bytes) :
    unpack? now (pack 0 payload) = some payload := by
  rw [unpack?_pack_eq, if_neg fun h => h.1 rfl]

end ProgramGraph
