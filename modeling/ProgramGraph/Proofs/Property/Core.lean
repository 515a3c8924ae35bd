import ProgramGraph.Proofs.Property.Fields

set_option autoImplicit false

/-! # What is read of properties

A node is read of properties just if they give no field of its core something of another shape.
Then its core has the values of the fields, everything else is extra, and so its properties are the
given ones in order (`Node.Read`). The same holds for edges (`Edge.Read`).
-/

namespace ProgramGraph

theorem map_eq_ok {α β : Type} {x : Outcome α} {f : α → β} {b : β} :
    x.map f = .ok b ↔ ∃ a, x = .ok a ∧ f a = b := by
  cases x <;> simp [Except.map]

theorem exists_map_eq_error {α β : Type} {x : Outcome α} {f : α → β} :
    (∃ failure, x.map f = .error failure) ↔ ∃ failure, x = .error failure := by
  cases x <;> simp [Except.map]

/-! ## Nodes -/

namespace Node

/-- A node of a kind that is read of properties. -/
structure Read (props : Properties) (id : String) (kind : NodeKind) (n : Node) : Prop where
  admitted : ∀ f ∈ NodeCore.coreFields kind, f.admits props = true
  id_eq : n.id = id
  core : NodeCore.Settles props kind n.core
  extra_eq : n.extra = props.without (NodeCore.keys kind)

variable {owner id : String} {kind : NodeKind} {props : Properties} {n : Node}

theorem read_of_ofProperties (h : ofProperties owner id kind props = .ok n) : n.Read props id kind := by
  obtain ⟨⟨core, extra⟩, htake, rfl⟩ := map_eq_ok.mp h
  obtain ⟨hadmits, hcore, hextra⟩ := (NodeCore.takes_take props kind).of_eq_ok (NodeCore.nodup_key_coreFields kind) htake
  exact ⟨hadmits, rfl, hcore, hextra.trans (by rw [NodeCore.map_key_coreFields])⟩

theorem ofProperties_eq_ok (h : ofProperties owner id kind props = .ok n) : n.id = id ∧ n.kind = kind :=
  ⟨(read_of_ofProperties h).id_eq, (read_of_ofProperties h).core.kind_eq⟩

theorem ofProperties_eq_error_iff : (∃ failure, ofProperties owner id kind props = .error failure) ↔
    ∃ f ∈ NodeCore.coreFields kind, f.admits props = false := by
  rw [ofProperties, exists_map_eq_error, (NodeCore.takes_take props kind).eq_error_iff (NodeCore.nodup_key_coreFields kind)]

namespace Read

theorem isApart (h : n.Read props id kind) : n.IsApart := fun key hkey => by
  have hkind : n.kind = kind := h.core.kind_eq
  rw [hkind] at hkey
  rw [h.extra_eq, Properties.getElem?_without, if_pos hkey]

/-- The properties of the node are the given ones in order. -/
theorem getElem?_properties (h : n.Read props id kind) (key : String) :
    n.properties[key]? = props.settled? (NodeCore.coreFields kind) key := by
  rw [properties, h.core.fields_eq h.admitted, h.extra_eq, ← NodeCore.map_key_coreFields,
    CoreField.getElem?_putOver_valued (NodeCore.nodup_key_coreFields kind)]

end Read

end Node

/-! ## Edges -/

namespace Edge

/-- An edge of a relation that is read of properties. -/
structure Read (props : Properties) (key : EdgeKey) (e : Edge) : Prop where
  admitted : ∀ f ∈ EdgeCore.coreFields key.kind, f.admits props = true
  source_eq : e.source = key.source
  target_eq : e.target = key.target
  core : EdgeCore.Settles props key.kind e.core
  extra_eq : e.extra = props.without (EdgeCore.keys key.kind)

variable {source target : String} {kind : EdgeKind} {key : EdgeKey} {props : Properties} {e : Edge}

theorem read_of_ofProperties (h : ofProperties source target kind props = .ok e) :
    e.Read props ⟨source, target, kind⟩ := by
  obtain ⟨⟨core, extra⟩, htake, rfl⟩ := map_eq_ok.mp h
  obtain ⟨hadmits, hcore, hextra⟩ := (EdgeCore.takes_take props kind).of_eq_ok (EdgeCore.nodup_key_coreFields kind) htake
  exact ⟨hadmits, rfl, rfl, hcore, hextra.trans (by rw [EdgeCore.map_key_coreFields])⟩

theorem ofProperties_eq_error_iff : (∃ failure, ofProperties source target kind props = .error failure) ↔
    ∃ f ∈ EdgeCore.coreFields kind, f.admits props = false := by
  rw [ofProperties, exists_map_eq_error, (EdgeCore.takes_take props kind).eq_error_iff (EdgeCore.nodup_key_coreFields kind)]

namespace Read

theorem key_eq (h : e.Read props key) : e.key = key := by
  have hkind : e.kind = key.kind := h.core.kind_eq
  rw [Edge.key, h.source_eq, h.target_eq, hkind]

theorem isApart (h : e.Read props key) : e.IsApart := fun name hname => by
  have hkind : e.kind = key.kind := h.core.kind_eq
  rw [hkind] at hname
  rw [h.extra_eq, Properties.getElem?_without, if_pos hname]

/-- The properties of the edge are the given ones in order. -/
theorem getElem?_properties (h : e.Read props key) (name : String) :
    e.properties[name]? = props.settled? (EdgeCore.coreFields key.kind) name := by
  rw [properties, h.core.fields_eq h.admitted, h.extra_eq, ← EdgeCore.map_key_coreFields,
    CoreField.getElem?_putOver_valued (EdgeCore.nodup_key_coreFields key.kind)]

end Read

theorem ofProperties_eq_ok (h : ofProperties source target kind props = .ok e) :
    e.key = ⟨source, target, kind⟩ := (read_of_ofProperties h).key_eq

end Edge

end ProgramGraph
