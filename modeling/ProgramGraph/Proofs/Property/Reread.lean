import ProgramGraph.Edge.Record
import ProgramGraph.Node.Record
import ProgramGraph.Proofs.Property.RoundTrip

set_option autoImplicit false

/-! # Nodes and edges that are written and read again

A node is written with core and extra properties in one map. A reader takes the core out of the
new map that it gets, and what is left over is extra. So the core comes back, and the extra
properties come back as long as none of them has a name that the core owns. The same holds for
edges, and both follow from what is said first about fields put over properties.
-/

namespace ProgramGraph

open ProgramGraph.Wire

/-! ## Fields over properties -/

/-- No property has one of the names. -/
def Properties.LacksAll (props : Properties) (keys : List String) : Prop :=
  ∀ key ∈ keys, props[key]? = none

/-- The properties without those of some names. -/
def Properties.without (props : Properties) (keys : List String) : Properties :=
  keys.foldl Std.TreeMap.erase props

theorem Properties.getElem?_without (props : Properties) (keys : List String) (key : String) :
    (props.without keys)[key]? = if key ∈ keys then none else props[key]? := by
  unfold without
  induction keys generalizing props with
  | nil => simp
  | cons k rest ih =>
      rw [List.foldl_cons, ih, getElem?_erased]
      by_cases hrest : key ∈ rest <;> by_cases hkey : key = k <;> simp [hrest, hkey]

/-- Fields with different names, all of them among the given ones. -/
structure Fields.Within (fields : Fields) (keys : List String) : Prop where
  distinct : fields.Pairwise fun a b => a.1 ≠ b.1
  owned : ∀ entry ∈ fields, entry.1 ∈ keys

namespace Fields.Within

variable {fields : Fields} {keys : List String} {extra : Properties}

theorem lookup_reverse (h : fields.Within keys) (key : String) :
    fields.reverse.lookup key = fields.lookup key := by
  have hreverse : fields.reverse.Pairwise fun a b => a.1 ≠ b.1 :=
    List.pairwise_reverse.mpr (h.distinct.imp Ne.symm)
  refine Option.ext fun value => ?_
  rw [lookup_eq_some_of_distinct hreverse, lookup_eq_some_of_distinct h.distinct, List.mem_reverse]

theorem lookup_eq_none (h : fields.Within keys) {key : String} (hkey : key ∉ keys) :
    fields.lookup key = none := by
  cases hlookup : fields.lookup key with
  | none => rfl
  | some value =>
      exact absurd (h.owned _ ((lookup_eq_some_of_distinct h.distinct).mp hlookup)) hkey

theorem getElem?_putOver (h : fields.Within keys) (props : Properties) (key : String) :
    (fields.putOver props)[key]? = (fields.lookup key).or props[key]? := by
  rw [Fields.getElem?_putOver, h.lookup_reverse]

/-- Where the extra properties lack the names, each name stands for a field. -/
theorem getElem?_putOver_of_mem (h : fields.Within keys) (hextra : extra.LacksAll keys)
    {key : String} (hkey : key ∈ keys) : (fields.putOver extra)[key]? = fields.lookup key := by
  rw [h.getElem?_putOver, hextra key hkey, Option.or_none]

/-- What is left over of properties with the same entries are the extra properties. -/
theorem getElem?_without_of_same (h : fields.Within keys) (hextra : extra.LacksAll keys)
    {props : Properties} (hsame : ∀ key : String, props[key]? = (fields.putOver extra)[key]?)
    (key : String) : (props.without keys)[key]? = extra[key]? := by
  rw [Properties.getElem?_without, hsame]
  by_cases hkey : key ∈ keys
  · rw [if_pos hkey, hextra key hkey]
  · rw [if_neg hkey, h.getElem?_putOver, h.lookup_eq_none hkey, Option.none_or]

/-- What is left over of the new map are the extra properties. -/
theorem getElem?_leftOver (h : fields.Within keys) (hextra : extra.LacksAll keys) (key : String) :
    ((fields.putOver extra).rebuilt.without keys)[key]? = extra[key]? :=
  h.getElem?_without_of_same hextra (Properties.getElem?_rebuilt _) key

/-- With the fields put over what is left over, the properties are complete again. -/
theorem getElem?_putOver_leftOver (h : fields.Within keys) (hextra : extra.LacksAll keys)
    (key : String) :
    (fields.putOver ((fields.putOver extra).rebuilt.without keys))[key]? =
      (fields.putOver extra)[key]? := by
  rw [h.getElem?_putOver, h.getElem?_leftOver hextra, h.getElem?_putOver]

end Fields.Within

/-! ## Taking a core out -/

theorem getElem?_erase_of_ne {props : Properties} {a b : String} (h : a ≠ b) :
    (props.erase a)[b]? = props[b]? := by
  rw [getElem?_erased, if_neg h.symm]

/-! ## Nodes -/

namespace NodeCore

theorem within_fields (core : NodeCore) : core.fields.Within (keys core.kind) := by
  rcases core with _ | _ | ⟨_, _, _, _, _ | _, _, _ | _, _⟩ | _ | _ <;>
    exact ⟨by simp [fields, Fields.optional], by simp [fields, Fields.optional, keys, kind]⟩

open Taking in
/-- **The core comes back** from properties that hold its fields. -/
theorem take_eq (core : NodeCore) {props : Properties}
    (h : ∀ key ∈ keys core.kind, props[key]? = core.fields.lookup key) (owner : String) :
    take core.kind owner props = .ok (core, props.without (keys core.kind)) := by
  rcases core with _ | _ | ⟨_, _, _, _, _ | _, _, _ | _, _⟩ | _ | _ <;>
    simp only [kind, keys, List.forall_mem_cons, List.not_mem_nil, false_implies, implies_true,
      and_true] at h <;>
    simp [h, fields, Fields.optional, List.lookup_cons, kind, keys, take, Bind.bind, Taking.bind,
      Pure.pure, Taking.pure, text, int, Taking.bool, texts, field, getElem?_erase_of_ne,
      Properties.without]

end NodeCore

namespace Node

/-- No extra property has a name that the core owns. -/
def IsApart (n : Node) : Prop := n.extra.LacksAll (NodeCore.keys n.kind)

/-- The node as it is read after it was written. -/
def reread (n : Node) : Node :=
  ⟨n.id, n.core, n.properties.rebuilt.without (NodeCore.keys n.kind)⟩

@[simp] theorem reread_id (n : Node) : n.reread.id = n.id := rfl

@[simp] theorem reread_core (n : Node) : n.reread.core = n.core := rfl

@[simp] theorem reread_kind (n : Node) : n.reread.kind = n.kind := rfl

variable {n : Node}

/-- A node is read from properties with the same entries. -/
theorem IsApart.ofRecord_of_same (h : n.IsApart) {props : Properties}
    (hsame : ∀ key : String, props[key]? = n.properties[key]?) :
    ofRecord ⟨n.id, n.kind, props⟩ = .ok ⟨n.id, n.core, props.without (NodeCore.keys n.kind)⟩ := by
  have hfields : ∀ key ∈ NodeCore.keys n.kind, props[key]? = n.core.fields.lookup key :=
    fun key hkey => by
      rw [hsame]
      exact n.core.within_fields.getElem?_putOver_of_mem h hkey
  have htake := NodeCore.take_eq n.core hfields n.id
  show (NodeCore.take n.core.kind n.id props).map _ = _
  rw [htake]
  rfl

/-- **A node is read** from the new map of its properties. -/
theorem IsApart.ofRecord_rebuilt (h : n.IsApart) :
    ofRecord ⟨n.id, n.kind, n.properties.rebuilt⟩ = .ok n.reread :=
  h.ofRecord_of_same (Properties.getElem?_rebuilt _)

/-- The extra properties come back. -/
theorem IsApart.getElem?_extra (h : n.IsApart) (key : String) :
    n.reread.extra[key]? = n.extra[key]? :=
  n.core.within_fields.getElem?_leftOver h key

/-- All properties come back. -/
theorem IsApart.getElem?_properties (h : n.IsApart) (key : String) :
    n.reread.properties[key]? = n.properties[key]? :=
  n.core.within_fields.getElem?_putOver_leftOver h key

end Node

/-! ## Edges -/

namespace EdgeCore

/-- The names of the properties that the core of a relation owns. -/
def keys : EdgeKind → List String
  | .contains => ["line_number"]
  | .calls => ["call_site", "call_type", "arguments"]
  | .inherits => ["inheritance_type"]
  | .imports => ["import_type", "alias", "line_number"]
  | .references => ["reference_type", "line_number"]
  | .defines => ["definition_type", "line_number"]

theorem within_fields (core : EdgeCore) : core.fields.Within (keys core.kind) := by
  rcases core with ⟨_ | _⟩ | ⟨_ | _, _, _ | _⟩ | _ | ⟨_, _ | _, _ | _⟩ | ⟨_, _ | _⟩ | ⟨_, _ | _⟩ <;>
    exact ⟨by simp [fields, Fields.optional], by simp [fields, Fields.optional, keys, kind]⟩

open Taking in
/-- **The core comes back** from properties that hold its fields. -/
theorem take_eq (core : EdgeCore) {props : Properties}
    (h : ∀ key ∈ keys core.kind, props[key]? = core.fields.lookup key) (owner : String) :
    take core.kind owner props = .ok (core, props.without (keys core.kind)) := by
  rcases core with ⟨_ | _⟩ | ⟨_ | _, _, _ | _⟩ | _ | ⟨_, _ | _, _ | _⟩ | ⟨_, _ | _⟩ | ⟨_, _ | _⟩ <;>
    simp only [kind, keys, List.forall_mem_cons, List.not_mem_nil, false_implies, implies_true,
      and_true] at h <;>
    simp [h, fields, Fields.optional, List.lookup_cons, kind, keys, take, Bind.bind, Taking.bind,
      Pure.pure, Taking.pure, text, int, field, getElem?_erase_of_ne, Properties.without]

end EdgeCore

namespace Edge

/-- No extra property has a name that the core owns. -/
def IsApart (e : Edge) : Prop := e.extra.LacksAll (EdgeCore.keys e.kind)

/-- The edge as it is read after it was written. -/
def reread (e : Edge) : Edge :=
  ⟨e.source, e.target, e.core, e.properties.rebuilt.without (EdgeCore.keys e.kind)⟩

@[simp] theorem reread_key (e : Edge) : e.reread.key = e.key := rfl

variable {e : Edge}

/-- An edge is read from properties with the same entries. -/
theorem IsApart.ofRecord_of_same (h : e.IsApart) {props : Properties}
    (hsame : ∀ key : String, props[key]? = e.properties[key]?) :
    ofRecord ⟨e.source, e.target, e.kind, props⟩ =
      .ok ⟨e.source, e.target, e.core, props.without (EdgeCore.keys e.kind)⟩ := by
  have hfields : ∀ key ∈ EdgeCore.keys e.kind, props[key]? = e.core.fields.lookup key :=
    fun key hkey => by
      rw [hsame]
      exact e.core.within_fields.getElem?_putOver_of_mem h hkey
  have htake := EdgeCore.take_eq e.core hfields ("edge " ++ e.source ++ " -> " ++ e.target)
  show (EdgeCore.take e.core.kind ("edge " ++ e.source ++ " -> " ++ e.target) _).map _ = _
  rw [htake]
  rfl

/-- **An edge is read** from the new map of its properties. -/
theorem IsApart.ofRecord_rebuilt (h : e.IsApart) :
    ofRecord ⟨e.source, e.target, e.kind, e.properties.rebuilt⟩ = .ok e.reread :=
  h.ofRecord_of_same (Properties.getElem?_rebuilt _)

/-- All properties come back. -/
theorem IsApart.getElem?_properties (h : e.IsApart) (key : String) :
    e.reread.properties[key]? = e.properties[key]? :=
  e.core.within_fields.getElem?_putOver_leftOver h key

end Edge

end ProgramGraph
