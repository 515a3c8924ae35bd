import Mathlib.Data.List.Nodup
import ProgramGraph.Proofs.Property.Reread

set_option autoImplicit false

/-! # The fields of a core

A core owns some properties, each with a shape, and most with a value that stands for one that is not
given (`CoreField`). Taking a core out of properties goes through its fields one by one, but it comes
to this (`Taking.Takes`): all fields are looked at first, the first one that is given something of
another shape is reported, and if there is none, the core is read off the properties as they are. Each
core is taken so, by the table of its fields (`NodeCore.takes_take`, `EdgeCore.takes_take`).
-/

namespace ProgramGraph

/-! ## Fields -/

/-- The value has the shape. -/
def Expected.fits : Expected → Property → Bool
  | .text, .text _ | .integer, .int _ | .bool, .bool _ | .texts, .texts _ => true
  | _, _ => false

/-- The value that properties give under a name. Null gives none. -/
def Properties.given? (props : Properties) (key : String) : Option Property :=
  match props[key]? with
  | none | some .null => none
  | some value => some value

/-- A property that a core owns. -/
structure CoreField where
  key : String
  shape : Expected
  /-- What stands for a value that is not given; a field without this may stay without a value. -/
  fallback : Option Property

namespace CoreField

/-- The properties give the field nothing of another shape. -/
def admits (f : CoreField) (props : Properties) : Bool := (props.given? f.key).all f.shape.fits

/-- The value of the field. -/
def value? (f : CoreField) (props : Properties) : Option Property :=
  (props.given? f.key).or f.fallback

/-- What is reported of a field that is given something of another shape. -/
def check (f : CoreField) (owner : String) (props : Properties) : Outcome Unit :=
  match (props.given? f.key).filter (!f.shape.fits ·) with
  | some value => .error (.wrongProperty owner f.key f.shape value.kindName)
  | none => .ok ()

/-- The fields are looked at in their order. -/
def checkAll (fields : List CoreField) (owner : String) (props : Properties) : Outcome Unit :=
  fields.forM fun f => f.check owner props

end CoreField

/-- The properties with the fields of a core in order: each field has its value, and everything else is
as it was. -/
def Properties.settled? (props : Properties) (fields : List CoreField) (key : String) :
    Option Property :=
  match fields.find? fun f => f.key = key with
  | some f => f.value? props
  | none => props[key]?

theorem Properties.given?_eq_none {props : Properties} {key : String} (h : props[key]? = none) :
    props.given? key = none := by
  rw [given?, h]

theorem Properties.given?_eq_none_of_null {props : Properties} {key : String}
    (h : props[key]? = some .null) : props.given? key = none := by
  rw [given?, h]

theorem Properties.given?_eq_some {props : Properties} {key : String} {value : Property}
    (h : props[key]? = some value) (hvalue : value ≠ .null) : props.given? key = some value := by
  rw [given?, h]
  cases value <;> first | rfl | exact absurd rfl hvalue

namespace CoreField

theorem check_eq_ok_iff {f : CoreField} {owner : String} {props : Properties} :
    f.check owner props = .ok () ↔ f.admits props = true := by
  unfold check admits
  cases hgiven : props.given? f.key with
  | none => simp
  | some value => cases hfits : f.shape.fits value <;> simp [Option.filter, hfits]

theorem checkAll_eq_ok_iff {fields : List CoreField} {owner : String} {props : Properties} :
    checkAll fields owner props = .ok () ↔ ∀ f ∈ fields, f.admits props = true := by
  induction fields with
  | nil => simp [checkAll, pure, Except.pure]
  | cons f rest ih =>
      rw [List.forall_mem_cons, ← ih, ← @check_eq_ok_iff f owner props]
      show (f.check owner props >>= fun _ => checkAll rest owner props) = .ok () ↔ _
      cases f.check owner props <;> simp [bind, Except.bind]

end CoreField

/-! ## Values in order -/

/-- Values of a shape are read, and written again as they were. -/
structure Reads {α : Type} (shape : Expected) (read : Property → Option α) (wrap : α → Property) :
    Prop where
  fits : ∀ value, shape.fits value = (read value).isSome
  eq_wrap : ∀ value a, read value = some a → value = wrap a

/-- The reading of texts. -/
theorem reads_text : Reads .text (fun | .text s => some s | _ => none) .text where
  fits value := by cases value <;> rfl
  eq_wrap value s h := by
    cases value <;> cases h
    rfl

/-- The reading of integers. -/
theorem reads_int : Reads .integer (fun | .int n => some n | _ => none) .int where
  fits value := by cases value <;> rfl
  eq_wrap value n h := by
    cases value <;> cases h
    rfl

/-- The reading of truth values. -/
theorem reads_bool : Reads .bool (fun | .bool b => some b | _ => none) .bool where
  fits value := by cases value <;> rfl
  eq_wrap value b h := by
    cases value <;> cases h
    rfl

/-- The reading of lists of texts. -/
theorem reads_texts : Reads .texts (fun | .texts items => some items | _ => none) .texts where
  fits value := by cases value <;> rfl
  eq_wrap value items h := by
    cases value <;> cases h
    rfl

namespace Reads

variable {α : Type} {shape : Expected} {read : Property → Option α} {wrap : α → Property}
  {props : Properties} {key : String} {fallback : Option Property}

theorem null_eq_none (h : Reads shape read wrap) : read .null = none := by
  rw [← Option.not_isSome_iff_eq_none, ← h.fits]
  cases shape <;> exact Bool.false_ne_true

/-- What is read of an admitted field is what it is given. -/
theorem given?_eq (h : Reads shape read wrap)
    (hadmits : CoreField.admits ⟨key, shape, fallback⟩ props = true) :
    props.given? key = (props[key]?.bind read).map wrap := by
  cases hvalue : props[key]? with
  | none => rw [Properties.given?_eq_none hvalue]; rfl
  | some value =>
      by_cases hnull : value = .null
      · rw [hnull] at hvalue
        rw [Properties.given?_eq_none_of_null hvalue, hnull, Option.bind_some, h.null_eq_none]
        rfl
      · have hgiven := Properties.given?_eq_some hvalue hnull
        have hfits : shape.fits value = true := by simpa [CoreField.admits, hgiven] using hadmits
        rw [h.fits] at hfits
        obtain ⟨a, ha⟩ := Option.isSome_iff_exists.mp hfits
        rw [hgiven, Option.bind_some, ha, Option.map_some, ← h.eq_wrap value a ha]

/-- The value of an admitted field that may stay without one. -/
theorem value?_optional (h : Reads shape read wrap)
    (hadmits : CoreField.admits ⟨key, shape, none⟩ props = true) :
    CoreField.value? ⟨key, shape, none⟩ props = (props[key]?.bind read).map wrap := by
  rw [CoreField.value?, h.given?_eq hadmits, Option.or_none]

/-- The value of an admitted field with a fallback. -/
theorem value?_default (h : Reads shape read wrap) {a : α}
    (hadmits : CoreField.admits ⟨key, shape, some (wrap a)⟩ props = true) :
    CoreField.value? ⟨key, shape, some (wrap a)⟩ props =
      some (wrap ((props[key]?.bind read).getD a)) := by
  rw [CoreField.value?, h.given?_eq hadmits]
  cases props[key]?.bind read <;> rfl

end Reads

namespace CoreField

/-- The fields that have a value, with their values. -/
def valued (fields : List CoreField) (props : Properties) : Fields :=
  fields.filterMap fun f => (f.value? props).map (f.key, ·)

section

variable {α : Type} {shape : Expected} {read : Property → Option α} {wrap : α → Property}
  {props : Properties} {key : String} {more : List CoreField}

theorem valued_cons_optional (h : Reads shape read wrap) (hadmits : admits ⟨key, shape, none⟩ props = true) :
    valued (⟨key, shape, none⟩ :: more) props =
      Fields.optional key wrap (props[key]?.bind read) ++ valued more props := by
  unfold valued
  rw [List.filterMap_cons, h.value?_optional hadmits]
  cases props[key]?.bind read <;> rfl

theorem valued_cons_default (h : Reads shape read wrap) {a : α}
    (hadmits : admits ⟨key, shape, some (wrap a)⟩ props = true) :
    valued (⟨key, shape, some (wrap a)⟩ :: more) props =
      (key, wrap ((props[key]?.bind read).getD a)) :: valued more props := by
  unfold valued
  rw [List.filterMap_cons, h.value?_default hadmits]
  rfl

end

variable {fields : List CoreField} {props : Properties}

theorem mem_valued_iff {key : String} {value : Property} :
    (key, value) ∈ valued fields props ↔ ∃ f ∈ fields, f.key = key ∧ f.value? props = some value := by
  simp only [valued, List.mem_filterMap, Option.map_eq_some_iff, Prod.mk.injEq]
  constructor
  · rintro ⟨f, hf, found, hvalue, hkey, rfl⟩
    exact ⟨f, hf, hkey, hvalue⟩
  · rintro ⟨f, hf, hkey, hvalue⟩
    exact ⟨f, hf, value, hvalue, hkey, rfl⟩

/-- Where no name is repeated, the values stand under different names. -/
theorem within_valued (h : (fields.map CoreField.key).Nodup) :
    (valued fields props).Within (fields.map CoreField.key) where
  distinct := by
    refine List.pairwise_filterMap.mpr ((List.pairwise_map.mp h).imp ?_)
    rintro f g hne ⟨key, value⟩ hvalue ⟨other, otherValue⟩ hother
    simp only [Option.map_eq_some_iff, Prod.mk.injEq] at hvalue hother
    obtain ⟨-, -, rfl, -⟩ := hvalue
    obtain ⟨-, -, rfl, -⟩ := hother
    exact hne
  owned := by
    rintro ⟨key, value⟩ hmem
    obtain ⟨f, hf, rfl, -⟩ := mem_valued_iff.mp hmem
    exact List.mem_map_of_mem hf

theorem lookup_valued (h : (fields.map CoreField.key).Nodup) {f : CoreField} (hf : f ∈ fields) :
    (valued fields props).lookup f.key = f.value? props := by
  refine Option.ext fun value => ?_
  rw [lookup_eq_some_of_distinct (within_valued h).distinct, mem_valued_iff]
  constructor
  · rintro ⟨g, hg, hkey, hvalue⟩
    obtain rfl := List.inj_on_of_nodup_map h hg hf hkey
    exact hvalue
  · exact fun hvalue => ⟨f, hf, rfl, hvalue⟩

/-- With the values of all fields put over the other properties, the properties are in order. -/
theorem getElem?_putOver_valued (h : (fields.map CoreField.key).Nodup) (key : String) :
    ((valued fields props).putOver (props.without (fields.map CoreField.key)))[key]? =
      props.settled? fields key := by
  have hwithin : (valued fields props).Within (fields.map CoreField.key) := within_valued h
  rw [hwithin.getElem?_putOver, Properties.getElem?_without, Properties.settled?]
  cases hfind : fields.find? fun f => f.key = key with
  | none =>
      have hkey : key ∉ fields.map CoreField.key := by simpa [List.find?_eq_none] using hfind
      rw [hwithin.lookup_eq_none hkey, if_neg hkey, Option.none_or]
  | some f =>
      have hmem : f ∈ fields := List.mem_of_find?_eq_some hfind
      obtain rfl : f.key = key := by simpa using List.find?_some hfind
      rw [lookup_valued h hmem, if_pos (List.mem_map_of_mem hmem), Option.or_none]

end CoreField

/-! ## Taking fields -/

namespace Taking

variable {α β : Type}

/-- Out of what is left of properties, taking comes to looking at all fields first; what is taken then
meets a condition, and the properties of the fields are gone. -/
def Takes (props : Properties) (fields : List CoreField) (t : Taking α) (condition : α → Prop) : Prop :=
  (fields.map CoreField.key).Nodup → ∀ owner rest,
    (∀ f ∈ fields, rest[f.key]? = props[f.key]?) →
      ∃ a, condition a ∧ t owner rest = (CoreField.checkAll fields owner props).map fun _ =>
        (a, rest.without (fields.map CoreField.key))

variable {shape : Expected} {read : Property → Option α} {wrap : α → Property} {props : Properties}
  {more : List CoreField} {condition : β → Prop} {fallback : Option Property} {key : String}

theorem takes_pure {b : β} (h : condition b) : Takes props [] (Pure.pure b) condition :=
  fun _ _ _ _ => ⟨b, h, rfl⟩

/-- One field is taken as it is looked at. -/
theorem field_eq_map_check (h : Reads shape read wrap) {rest : Properties}
    (hrest : rest[key]? = props[key]?) (owner : String) :
    field shape read key owner rest = (CoreField.check ⟨key, shape, fallback⟩ owner props).map
      fun _ => (props[key]?.bind read, rest.erase key) := by
  unfold field CoreField.check Properties.given?
  rw [hrest]
  cases props[key]? with
  | none => simp [Except.map]
  | some value =>
      by_cases hisNull : value = .null
      · simp [hisNull, h.null_eq_none, Except.map]
      · have hfits := h.fits value
        cases hread : read value <;> simp [Option.filter, hfits, hread, Except.map]

/-- A field, and then the others. -/
theorem takes_field (h : Reads shape read wrap) {next : Option α → Taking β}
    (hnext : Takes props more (next (props[key]?.bind read)) condition) :
    Takes props (⟨key, shape, fallback⟩ :: more) (field shape read key >>= next) condition := by
  intro hnodup owner rest hrest
  obtain ⟨hkey, hmore⟩ := List.nodup_cons.mp hnodup
  -- The other fields find what they would have found first: none of them goes by the erased name.
  have hkept : ∀ f ∈ more, (rest.erase key)[f.key]? = props[f.key]? := fun f hf => by
    have hmem : f.key ∈ more.map CoreField.key := List.mem_map_of_mem hf
    have hne : key ≠ f.key := fun heq => hkey (heq ▸ hmem)
    rw [getElem?_erase_of_ne hne]
    exact hrest f (List.mem_cons_of_mem _ hf)
  obtain ⟨b, hb, htake⟩ := hnext hmore owner (rest.erase key) hkept
  refine ⟨b, hb, ?_⟩
  show bind _ next owner rest = Except.map _
    (CoreField.check ⟨key, shape, fallback⟩ owner props >>= fun _ => CoreField.checkAll more owner props)
  unfold bind
  rw [field_eq_map_check h (hrest _ List.mem_cons_self)]
  cases CoreField.check ⟨key, shape, fallback⟩ owner props with
  | error failure => rfl
  | ok done => exact htake

namespace Takes

variable {fields : List CoreField} {t : Taking α} {condition : α → Prop} {owner : String}

/-- What is taken out of the properties themselves. -/
theorem of_eq_ok (h : Takes props fields t condition) (hnodup : (fields.map CoreField.key).Nodup)
    {a : α} {rest : Properties} (htake : t owner props = .ok (a, rest)) :
    (∀ f ∈ fields, f.admits props = true) ∧ condition a ∧
      rest = props.without (fields.map CoreField.key) := by
  obtain ⟨b, hb, heq⟩ := h hnodup owner props fun _ _ => rfl
  rw [heq] at htake
  cases hcheck : CoreField.checkAll fields owner props with
  | error failure => rw [hcheck] at htake; cases htake
  | ok done =>
      rw [hcheck] at htake
      cases htake
      exact ⟨CoreField.checkAll_eq_ok_iff.mp hcheck, hb, rfl⟩

/-- Nothing is taken just if some field is given something of another shape. -/
theorem eq_error_iff (h : Takes props fields t condition) (hnodup : (fields.map CoreField.key).Nodup) :
    (∃ failure, t owner props = .error failure) ↔ ∃ f ∈ fields, f.admits props = false := by
  obtain ⟨b, -, heq⟩ := h hnodup owner props fun _ _ => rfl
  have hadmits := @CoreField.checkAll_eq_ok_iff fields owner props
  rw [heq]
  cases hcheck : CoreField.checkAll fields owner props with
  | error failure =>
      have hnot : ¬∀ f ∈ fields, f.admits props = true := fun hall => by
        rw [hadmits.mpr hall] at hcheck
        cases hcheck
      simpa [Except.map] using hnot
  | ok done => simpa [Except.map] using hadmits.mp hcheck

end Takes

end Taking

/-! ## The fields of nodes -/

namespace NodeCore

/-- The fields of the core of a kind. -/
def coreFields : NodeKind → List CoreField
  | .file =>
      [⟨"path", .text, some (.text "")⟩, ⟨"language", .text, some (.text "")⟩,
        ⟨"loc", .integer, some (.int 0)⟩]
  | .module | .variable =>
      [⟨"name", .text, some (.text "")⟩, ⟨"qualified_name", .text, some (.text "")⟩]
  | .function =>
      [⟨"name", .text, some (.text "")⟩, ⟨"qualified_name", .text, some (.text "")⟩,
        ⟨"line_start", .integer, some (.int 0)⟩, ⟨"line_end", .integer, some (.int 0)⟩,
        ⟨"complexity", .integer, none⟩, ⟨"params", .texts, some (.texts [])⟩,
        ⟨"return_type", .text, none⟩, ⟨"is_async", .bool, some (.bool false)⟩]
  | .classDef =>
      [⟨"name", .text, some (.text "")⟩, ⟨"qualified_name", .text, some (.text "")⟩,
        ⟨"line_start", .integer, some (.int 0)⟩, ⟨"line_end", .integer, some (.int 0)⟩,
        ⟨"base_classes", .texts, some (.texts [])⟩, ⟨"methods", .texts, some (.texts [])⟩]

theorem map_key_coreFields (kind : NodeKind) : (coreFields kind).map CoreField.key = keys kind := by
  cases kind <;> rfl

theorem nodup_key_coreFields (kind : NodeKind) : ((coreFields kind).map CoreField.key).Nodup := by
  cases kind <;> decide

/-- A core of the kind that has the values of properties. -/
structure Settles (props : Properties) (kind : NodeKind) (core : NodeCore) : Prop where
  kind_eq : core.kind = kind
  fields_eq : (∀ f ∈ coreFields kind, f.admits props = true) →
    core.fields = CoreField.valued (coreFields kind) props

open Taking CoreField in
/-- **The core of a node** is taken field by field. -/
theorem takes_take (props : Properties) (kind : NodeKind) :
    Takes props (coreFields kind) (take kind) (Settles props kind) := by
  -- Each step of taking is one row of the table. What is left is that the core, written out again, has
  -- the values of the rows.
  -- the fields are taken in the order in which the core names them
  cases kind with
  | file =>
      refine takes_field reads_text (takes_field reads_text (takes_field reads_int (takes_pure ?_)))
      refine ⟨rfl, fun h => ?_⟩
      simp only [coreFields, List.forall_mem_cons] at h
      obtain ⟨hpath, hlanguage, hlines, -⟩ := h
      rw [coreFields, valued_cons_default reads_text hpath, valued_cons_default reads_text hlanguage,
        valued_cons_default reads_int hlines]
      rfl
  | module | «variable» =>
      refine takes_field reads_text (takes_field reads_text (takes_pure ?_))
      refine ⟨rfl, fun h => ?_⟩
      simp only [coreFields, List.forall_mem_cons] at h
      obtain ⟨hname, hqualified, -⟩ := h
      rw [coreFields, valued_cons_default reads_text hname, valued_cons_default reads_text hqualified]
      rfl
  | function =>
      refine takes_field reads_text (takes_field reads_text (takes_field reads_int
        (takes_field reads_int (takes_field reads_int (takes_field reads_texts
          (takes_field reads_text (takes_field reads_bool (takes_pure ?_))))))))
      refine ⟨rfl, fun h => ?_⟩
      simp only [coreFields, List.forall_mem_cons] at h
      obtain ⟨hname, hqualified, hstart, hend, hcomplexity, hparams, hreturn, hasync, -⟩ := h
      rw [coreFields, valued_cons_default reads_text hname, valued_cons_default reads_text hqualified,
        valued_cons_default reads_int hstart, valued_cons_default reads_int hend,
        valued_cons_optional reads_int hcomplexity, valued_cons_default reads_texts hparams,
        valued_cons_optional reads_text hreturn, valued_cons_default reads_bool hasync]
      simp [fields, valued]
  | classDef =>
      refine takes_field reads_text (takes_field reads_text (takes_field reads_int
        (takes_field reads_int (takes_field reads_texts (takes_field reads_texts (takes_pure ?_))))))
      refine ⟨rfl, fun h => ?_⟩
      simp only [coreFields, List.forall_mem_cons] at h
      obtain ⟨hname, hqualified, hstart, hend, hbases, hmethods, -⟩ := h
      rw [coreFields, valued_cons_default reads_text hname, valued_cons_default reads_text hqualified,
        valued_cons_default reads_int hstart, valued_cons_default reads_int hend,
        valued_cons_default reads_texts hbases, valued_cons_default reads_texts hmethods]
      rfl

end NodeCore

/-! ## The fields of edges -/

namespace EdgeCore

/-- The fields of the core of a relation. -/
def coreFields : EdgeKind → List CoreField
  | .contains => [⟨"line_number", .integer, none⟩]
  | .calls =>
      [⟨"call_site", .integer, none⟩, ⟨"call_type", .text, some (.text "direct")⟩,
        ⟨"arguments", .text, none⟩]
  | .inherits => [⟨"inheritance_type", .text, some (.text "single")⟩]
  | .imports =>
      [⟨"import_type", .text, some (.text "import")⟩, ⟨"alias", .text, none⟩,
        ⟨"line_number", .integer, none⟩]
  | .references =>
      [⟨"reference_type", .text, some (.text "read")⟩, ⟨"line_number", .integer, none⟩]
  | .defines =>
      [⟨"definition_type", .text, some (.text "local")⟩, ⟨"line_number", .integer, none⟩]

theorem map_key_coreFields (kind : EdgeKind) : (coreFields kind).map CoreField.key = keys kind := by
  cases kind <;> rfl

theorem nodup_key_coreFields (kind : EdgeKind) : ((coreFields kind).map CoreField.key).Nodup := by
  cases kind <;> decide

/-- A core of the relation that has the values of properties. -/
structure Settles (props : Properties) (kind : EdgeKind) (core : EdgeCore) : Prop where
  kind_eq : core.kind = kind
  fields_eq : (∀ f ∈ coreFields kind, f.admits props = true) →
    core.fields = CoreField.valued (coreFields kind) props

open Taking CoreField in
/-- **The core of an edge** is taken field by field. -/
theorem takes_take (props : Properties) (kind : EdgeKind) :
    Takes props (coreFields kind) (take kind) (Settles props kind) := by
  cases kind with
  | contains =>
      refine takes_field reads_int (takes_pure ⟨rfl, fun h => ?_⟩)
      simp only [coreFields, List.forall_mem_cons] at h
      rw [coreFields, valued_cons_optional reads_int h.1]
      simp [fields, valued]
  | calls =>
      refine takes_field reads_int (takes_field reads_text (takes_field reads_text
        (takes_pure ⟨rfl, fun h => ?_⟩)))
      simp only [coreFields, List.forall_mem_cons] at h
      obtain ⟨hsite, htype, harguments, -⟩ := h
      rw [coreFields, valued_cons_optional reads_int hsite, valued_cons_default reads_text htype,
        valued_cons_optional reads_text harguments]
      simp [fields, valued]
  | inherits =>
      refine takes_field reads_text (takes_pure ⟨rfl, fun h => ?_⟩)
      simp only [coreFields, List.forall_mem_cons] at h
      rw [coreFields, valued_cons_default reads_text h.1]
      rfl
  | imports =>
      refine takes_field reads_text (takes_field reads_text (takes_field reads_int
        (takes_pure ⟨rfl, fun h => ?_⟩)))
      simp only [coreFields, List.forall_mem_cons] at h
      obtain ⟨htype, halias, hline, -⟩ := h
      rw [coreFields, valued_cons_default reads_text htype, valued_cons_optional reads_text halias,
        valued_cons_optional reads_int hline]
      simp [fields, valued]
  | references | defines =>
      refine takes_field reads_text (takes_field reads_int (takes_pure ⟨rfl, fun h => ?_⟩))
      simp only [coreFields, List.forall_mem_cons] at h
      obtain ⟨htype, hline, -⟩ := h
      rw [coreFields, valued_cons_default reads_text htype, valued_cons_optional reads_int hline]
      simp [fields, valued]

end EdgeCore

end ProgramGraph
