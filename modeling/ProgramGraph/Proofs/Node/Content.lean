import ProgramGraph.Proofs.Node.Equality
import ProgramGraph.Proofs.Store.Records

set_option autoImplicit false

/-! # Nodes with plain content

A node is plain if its extra properties keep apart from its core and none of them is a float. A
plain node has the same content before it is written and after it is read again.
-/

namespace ProgramGraph

/-- What is no number is written as null in JSON. -/
theorem Json.KeepsFloat.isNumber {x : Binary64} (h : Json.KeepsFloat x) : x.IsNumber := by
  have hnull : Json.parse? "null" = some .null := by rfl
  cases hnan : x.toFloat.isNaN with
  | false => exact hnan
  | true =>
      have hwrite : Json.writeFloat x.toFloat = "null".toList := by
        rw [Json.writeFloat, hnan, Bool.true_or, if_pos rfl]
      have hprint : Json.print (.float x) = "null" := by
        rw [Json.print, Json.writeValue, hwrite]
        rfl
      rw [Json.KeepsFloat, hprint, hnull] at h
      cases h

/-- Floats that JSON keeps are numbers. -/
theorem Properties.KeepsFloats.hasNumbers {props : Properties} (h : props.KeepsFloats) :
    props.HasNumbers := fun key x hkey => (h key x hkey).isNumber

/-- No value is a float. -/
def Properties.LacksFloats (props : Properties) : Prop :=
  ∀ (key : String) (x : Binary64), props[key]? ≠ some (.float x)

theorem Properties.LacksFloats.keepsFloats {props : Properties} (h : props.LacksFloats) :
    props.KeepsFloats := fun key x hkey => absurd hkey (h key x)

theorem Properties.LacksFloats.hasNumbers {props : Properties} (h : props.LacksFloats) :
    props.HasNumbers := fun key x hkey => absurd hkey (h key x)

theorem Properties.lacksFloats_empty : LacksFloats ∅ := fun key x h => by simp at h

namespace NodeCore

/-- The property that has the qualified name. -/
def qualifiedKey : NodeKind → String
  | .file => "path"
  | _ => "qualified_name"

theorem lookup_qualifiedKey (core : NodeCore) :
    core.fields.lookup (qualifiedKey core.kind) = some (.text core.qualifiedName) := by
  cases core <;> simp [fields, qualifiedKey, kind, qualifiedName, List.lookup_cons]

end NodeCore

namespace Node

/-- Among the properties of a node only extra ones are floats. -/
theorem hasNumbers_properties {n : Node} (h : n.extra.HasNumbers) : n.properties.HasNumbers :=
  fun key x hkey => h key x (n.core.within_fields.float_of_putOver n.core.fields_ne_float hkey)

/-- Reading a written node again makes no difference to its content. -/
theorem IsApart.reread_sameContent {m : Node} (h : m.IsApart) (n : Node) :
    m.reread.sameContent n = m.sameContent n := by
  have heq : m.reread.properties.toList = m.properties.toList :=
    (Std.TreeMap.Equiv.of_forall_constGet?_eq h.getElem?_properties).toList_eq
  rw [sameContent, sameContent, Properties.same, Properties.same, heq, reread_kind]

/-- **A node keeps its content** when it is written and read again, if its extra properties keep apart
from its core and its floats are numbers. -/
theorem IsApart.sameContent_reread {n : Node} (h : n.IsApart) (hnumbers : n.extra.HasNumbers) :
    n.reread.sameContent n = true := by
  rw [h.reread_sameContent]
  exact sameContent_self (hasNumbers_properties hnumbers)

theorem isApart_ofCore (id : String) (core : NodeCore) : (ofCore id core).IsApart := fun _ _ => rfl

/-- A name that the core owns is refused, so the extra properties still keep apart. -/
theorem IsApart.withExtra {n : Node} (h : n.IsApart) (key : String) (value : Property) :
    (n.withExtra key value).IsApart := by
  unfold Node.withExtra
  split
  · exact h
  · rename_i hkey
    intro k hk
    have hk : k ∈ NodeCore.keys n.kind := hk
    have hne : k ≠ key := by
      rintro rfl
      exact hkey (List.contains_iff_mem.mpr hk)
    show (n.extra.insert key value)[k]? = none
    rw [getElem?_inserted, if_neg hne]
    exact h k hk

theorem property?_qualifiedKey (n : Node) :
    n.property? (NodeCore.qualifiedKey n.kind) = some (.text n.qualifiedName) := by
  rw [property?, properties, n.core.within_fields.getElem?_putOver, kind, n.core.lookup_qualifiedKey, Option.some_or,
    qualifiedName]

/-- The extra properties keep apart from the core, and none is a float. -/
structure IsPlain (n : Node) : Prop where
  apart : n.IsApart
  lacksFloats : n.extra.LacksFloats

theorem isPlain_ofCore (id : String) (core : NodeCore) : (ofCore id core).IsPlain :=
  ⟨isApart_ofCore id core, Properties.lacksFloats_empty⟩

namespace IsPlain

variable {n : Node}

theorem withExtra (h : n.IsPlain) (key : String) {value : Property} (hvalue : ∀ x, value ≠ .float x) :
    (n.withExtra key value).IsPlain where
  apart := h.apart.withExtra key value
  lacksFloats := by
    unfold Node.withExtra
    split
    · exact h.lacksFloats
    · intro k x
      show (n.extra.insert key value)[k]? ≠ _
      rw [getElem?_inserted]
      split
      · exact fun heq => hvalue x (Option.some.inj heq)
      · exact h.lacksFloats k x

/-- No property of a plain node is a float. -/
theorem lacksFloats_properties (h : n.IsPlain) : n.properties.LacksFloats :=
  fun key x hkey => h.lacksFloats key x (n.core.within_fields.float_of_putOver n.core.fields_ne_float hkey)

/-- **The content of a plain node** is its kind and its properties by name. -/
theorem of_sameContent (h : n.IsPlain) {m : Node} (hsame : m.sameContent n = true) :
    m.kind = n.kind ∧ ∀ key, m.property? key = n.property? key := by
  rw [sameContent, Bool.and_eq_true, beq_iff_eq] at hsame
  exact ⟨hsame.1, Properties.getElem?_of_same h.lacksFloats_properties hsame.2⟩

/-- Nodes of equal content have one qualified name, as it is among the properties. -/
theorem qualifiedName_eq (h : n.IsPlain) {m : Node} (hsame : m.sameContent n = true) :
    m.qualifiedName = n.qualifiedName := by
  obtain ⟨hkind, hproperty⟩ := h.of_sameContent hsame
  have hname := hproperty (NodeCore.qualifiedKey n.kind)
  rw [n.property?_qualifiedKey, ← hkind, m.property?_qualifiedKey] at hname
  simpa using hname

/-- **A plain node keeps its content** when it is written and read again. -/
theorem sameContent_reread (h : n.IsPlain) : n.reread.sameContent n = true :=
  h.apart.sameContent_reread h.lacksFloats.hasNumbers

end IsPlain

theorem withExtra_kind (n : Node) (key : String) (value : Property) :
    (n.withExtra key value).kind = n.kind := by
  unfold withExtra
  split <;> rfl

theorem withExtra_core (n : Node) (key : String) (value : Property) :
    (n.withExtra key value).core = n.core := by
  unfold withExtra
  split <;> rfl

theorem withExtra_id (n : Node) (key : String) (value : Property) :
    (n.withExtra key value).id = n.id := by
  unfold withExtra
  split <;> rfl

end Node

end ProgramGraph
