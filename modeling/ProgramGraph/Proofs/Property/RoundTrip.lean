import ProgramGraph.Proofs.Json.RoundTrip
import ProgramGraph.Proofs.Map
import ProgramGraph.Proofs.MsgPack.RoundTrip
import ProgramGraph.Proofs.Wire.Members
import ProgramGraph.Property.Core
import ProgramGraph.Property.Wire

set_option autoImplicit false

/-! # Properties that are written and read again

Reading written properties enters them into a new map, one after the other in the order of
their names. The new map has the old entries (`Properties.rebuilt`), and both encodings give the
same new map.
-/

namespace ProgramGraph

open ProgramGraph.Wire

/-! ## Entering fields -/

/-- In a list without repeated names, a name is looked up to the value that stands beside it. -/
theorem lookup_eq_some_of_distinct {fields : Fields} (h : fields.Pairwise fun a b => a.1 ≠ b.1)
    {key : String} {value : Property} :
    fields.lookup key = some value ↔ (key, value) ∈ fields := by
  induction fields with
  | nil => simp
  | cons entry rest ih =>
      obtain ⟨k, v⟩ := entry
      obtain ⟨hfirst, hrest⟩ := List.pairwise_cons.mp h
      by_cases hkey : key = k
      · subst hkey
        have hnot : (key, value) ∉ rest := fun hmem => hfirst _ hmem rfl
        simp [hnot, eq_comm]
      · have hne : (key == k) = false := beq_false_of_ne hkey
        simp [List.lookup_cons, hne, hkey, ih hrest]

namespace Fields

/-- Of several fields with one name the last counts. -/
theorem getElem?_putOver (fields : Fields) (props : Properties) (key : String) :
    (fields.putOver props)[key]? = (fields.reverse.lookup key).or props[key]? := by
  induction fields generalizing props with
  | nil => rfl
  | cons entry rest ih =>
      obtain ⟨k, v⟩ := entry
      have hone : (List.lookup key [(k, v)]).or props[key]? = (props.insert k v)[key]? := by
        rw [getElem?_inserted]
        by_cases hkey : key = k
        · simp [hkey]
        · have hne : (key == k) = false := beq_false_of_ne hkey
          simp [List.lookup_cons, hne, hkey]
      rw [List.reverse_cons, List.lookup_append, Option.or_assoc, hone]
      exact ih (props.insert k v)

end Fields

namespace Properties

/-- The properties entered into a new map, one after the other. -/
def rebuilt (props : Properties) : Properties := Fields.putOver props.toList ∅

/-- The new map has the old entries. -/
theorem getElem?_rebuilt (props : Properties) (key : String) : props.rebuilt[key]? = props[key]? := by
  have hdistinct : props.toList.reverse.Pairwise fun a b => a.1 ≠ b.1 :=
    List.pairwise_reverse.mpr ((distinct_toList props).imp Ne.symm)
  rw [rebuilt, Fields.getElem?_putOver, Std.TreeMap.getElem?_emptyc, Option.or_none]
  refine Option.ext fun value => ?_
  rw [lookup_eq_some_of_distinct hdistinct, List.mem_reverse,
    Std.TreeMap.mem_toList_iff_getElem?_eq_some]

end Properties

/-! ## Single values -/

theorem mapM_text? (items : List String) :
    (items.map Value.text).mapM Value.text? = some items :=
  mapM_map_eq fun _ _ => rfl

theorem rereadItems_texts (items : List String) :
    MsgPack.rereadItems (items.map Value.text) = items.map Value.text := by
  induction items with
  | nil => rfl
  | cons s rest ih =>
      rw [List.map_cons, MsgPack.rereadItems, ih]
      rfl

namespace Property

theorem ofWire?_int (n : Int64) :
    (if n.toInt ≤ Int64.maxValue.toInt then some (Property.int (Int64.ofInt n.toInt))
      else some (.float (Value.floatOfInteger n.toInt))) = some (.int n) := by
  rw [if_pos (Int64.toInt_le n), Int64.ofInt_toInt]

/-- A value is kept by the wire. -/
theorem ofWire?_toWire (p : Property) : ofWire? p.toWire = some p := by
  cases p with
  | int n => exact ofWire?_int n
  | texts items =>
      rw [toWire, ofWire?, mapM_text?]
      rfl
  | _ => rfl

/-- A value is also kept by the binary encoding, which has two forms of integers. -/
theorem ofWire?_reread (p : Property) : ofWire? (MsgPack.reread p.toWire) = some p := by
  cases p with
  | int n =>
      rw [toWire, MsgPack.reread]
      split <;> exact ofWire?_int n
  | texts items =>
      rw [toWire, MsgPack.reread, rereadItems_texts, ofWire?, mapM_text?]
      rfl
  | _ => rfl

end Property

/-! ## Maps -/

namespace Properties

/-- Every float comes back from its JSON text. -/
def KeepsFloats (props : Properties) : Prop :=
  ∀ (key : String) (x : Binary64), props[key]? = some (.float x) → Json.KeepsFloat x

/-- The properties as entries of a map, each value changed in some way. -/
def wireEntries (f : Value → Value) (fields : Fields) : List (Key × Value) :=
  fields.map fun (key, value) => (.name key, f value.toWire)

theorem mapM_wireEntries {f : Value → Value} (h : ∀ p : Property, Property.ofWire? (f p.toWire) = some p)
    (fields : Fields) :
    (wireEntries f fields).mapM (Value.named? Property.ofWire?) = some fields := by
  induction fields with
  | nil => rfl
  | cons entry rest ih =>
      obtain ⟨key, value⟩ := entry
      have hvalue : Value.named? Property.ofWire? (.name key, f value.toWire) = some (key, value) := by
        simp [Value.named?, h]
      show (((.name key, f value.toWire) :: wireEntries f rest).mapM
        (Value.named? Property.ofWire?)) = _
      rw [List.mapM_cons, hvalue, ih]
      rfl

theorem ofWire?_wireEntries {f : Value → Value}
    (h : ∀ p : Property, Property.ofWire? (f p.toWire) = some p) (props : Properties) :
    ofWire? (.map (wireEntries f props.toList)) = some props.rebuilt := by
  rw [ofWire?, Value.entries?, mapM_wireEntries h]
  rfl

/-- Written properties are read as the new map. -/
theorem ofWire?_toWire (props : Properties) : ofWire? props.toWire = some props.rebuilt :=
  ofWire?_wireEntries (f := id) Property.ofWire?_toWire props

theorem rereadEntries_wireEntries (fields : Fields) :
    MsgPack.rereadEntries (wireEntries id fields) = wireEntries MsgPack.reread fields := by
  induction fields with
  | nil => rfl
  | cons entry rest ih =>
      show MsgPack.rereadEntries ((.name entry.1, entry.2.toWire) :: wireEntries id rest) = _
      rw [MsgPack.rereadEntries, ih]
      rfl

/-- Properties read in the binary encoding are the new map too. -/
theorem ofWire?_reread (props : Properties) :
    ofWire? (MsgPack.reread props.toWire) = some props.rebuilt := by
  have hentries : MsgPack.reread props.toWire = .map (wireEntries MsgPack.reread props.toList) := by
    rw [← rereadEntries_wireEntries]
    rfl
  rw [hentries]
  exact ofWire?_wireEntries Property.ofWire?_reread props

theorem keeps_toWire {value : Property} (h : ∀ x, value = .float x → Json.KeepsFloat x) :
    Json.Keeps value.toWire := by
  cases value with
  | null => exact .null
  | bool b => exact .bool b
  | int n =>
      have hlow := Int64.minValue_le_toInt n
      have hhigh := Int64.toInt_lt n
      exact .integer (by simpa using hlow) (by omega)
  | float x => exact .float (h x rfl)
  | text s => exact .text s
  | texts items =>
      refine .list fun v hv => ?_
      obtain ⟨s, -, rfl⟩ := List.mem_map.mp hv
      exact .text s

/-- JSON keeps properties whose floats it keeps. -/
theorem KeepsFloats.keeps {props : Properties} (h : props.KeepsFloats) : Json.Keeps props.toWire := by
  refine .map (fun entry hentry => ?_) fun entry hentry => ?_
  · obtain ⟨⟨key, value⟩, -, rfl⟩ := List.mem_map.mp hentry
    exact ⟨key, rfl⟩
  · obtain ⟨⟨key, value⟩, hmem, rfl⟩ := List.mem_map.mp hentry
    refine keeps_toWire fun x hx => h key x ?_
    rw [← Std.TreeMap.mem_toList_iff_getElem?_eq_some]
    exact hx ▸ hmem

/-- **Properties come back from JSON** as the new map. -/
theorem KeepsFloats.parse? {props : Properties} (h : props.KeepsFloats) :
    (Json.parse? (Json.print props.toWire)).bind ofWire? = some props.rebuilt := by
  rw [Json.parse?_print h.keeps]
  exact ofWire?_toWire props

end Properties

end ProgramGraph
