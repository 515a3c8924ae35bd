import Mathlib.Data.List.Forall2
import ProgramGraph.Wire.Value

set_option autoImplicit false

/-! # Members are read back

A map is written with at most one entry for each member that a reader knows, under any of the
names that the member goes by. If no two members share a name, the reader finds each member under
its first name, with what was written for it, and finds nothing where nothing was written
(`bind_members?_ofMembers`).
-/

namespace ProgramGraph.Wire

/-! ## Items of a list -/

theorem mapM_map_eq {α β : Type} {write : α → β} {read : β → Option α} {items : List α}
    (h : ∀ a ∈ items, read (write a) = some a) : (items.map write).mapM read = some items := by
  induction items with
  | nil => rfl
  | cons a rest ih =>
      rw [List.map_cons, List.mapM_cons, h a List.mem_cons_self,
        ih fun b hb => h b (List.mem_cons_of_mem a hb)]
      rfl

/-- A list is read back if its items are. -/
theorem Value.list?_map {α : Type} {write : α → Value} {read : Value → Option α} {items : List α}
    (h : ∀ a ∈ items, read (write a) = some a) :
    Value.list? read (.list (items.map write)) = some items := mapM_map_eq h

/-! ## Members -/

namespace Members

variable {known : List (List String)}

/-- The member that an entry gives, under its first name. -/
def entered? (known : List (List String)) (entry : Key × Value) : Option (String × Value) :=
  ((indexOf? known entry.1).bind fun i => known[i]?.bind List.head?).map (·, entry.2)

/-- Entries that give different members are all read; those that give none are skipped. -/
theorem ofEntries?_eq {entries : List (Key × Value)}
    (h : ((entries.filterMap (entered? known)).map Prod.fst).Nodup) :
    ofEntries? known entries = some (entries.filterMap (entered? known)) := by
  induction entries with
  | nil => rfl
  | cons entry rest ih =>
      rw [List.filterMap_cons] at h ⊢
      cases hname : (indexOf? known entry.1).bind fun i => known[i]?.bind List.head? with
      | none =>
          simp only [entered?, hname, Option.map_none] at h ⊢
          rw [ofEntries?, ih h, Option.bind_some, enter, hname]
      | some name =>
          simp only [entered?, hname, Option.map_some, List.map_cons, List.nodup_cons] at h ⊢
          obtain ⟨hnew, hrest⟩ := h
          -- The member is given here and nowhere else, so it is not refused as given twice.
          have hlookup : (rest.filterMap (entered? known)).lookup name = none := by
            rw [List.lookup_eq_none_iff]
            intro member hmember
            rw [bne_iff_ne]
            rintro rfl
            exact hnew (List.mem_map_of_mem hmember)
          rw [ofEntries?, ih hrest, Option.bind_some, enter, hname]
          simp only [entered?] at hlookup ⊢
          rw [hlookup]
          rfl

/-- A key is looked for among the names of the members in their order. -/
theorem bind_findIdx?_eq (p : List String → Bool) :
    ((known.findIdx? p).bind fun i => known[i]?.bind List.head?) =
      (known.find? p).bind List.head? := by
  induction known with
  | nil => rfl
  | cons names rest ih =>
      rw [List.findIdx?_cons, List.find?_cons]
      cases p names with
      | true => rfl
      | false => rw [← ih]; cases rest.findIdx? p <;> rfl

/-- **A name belongs to one member**, if no two members share one. -/
theorem find?_contains_eq (hdistinct : known.flatten.Nodup) {names : List String}
    (hnames : names ∈ known) {key : String} (hkey : key ∈ names) :
    known.find? (·.contains key) = some names := by
  induction known with
  | nil => cases hnames
  | cons first rest ih =>
      rw [List.flatten_cons, List.nodup_append] at hdistinct
      obtain ⟨-, hrest, hapart⟩ := hdistinct
      rw [List.find?_cons]
      rcases List.mem_cons.mp hnames with rfl | hnames
      · rw [List.contains_iff_mem.mpr hkey]
      · have hother : first.contains key = false := Bool.eq_false_iff.mpr fun hfirst =>
          hapart key (List.contains_iff_mem.mp hfirst) key
            (List.mem_flatten_of_mem hnames hkey) rfl
        rw [hother]
        exact ih hrest hnames

theorem entered?_name (hdistinct : known.flatten.Nodup) {names : List String}
    (hnames : names ∈ known) {key : String} (hkey : key ∈ names) (v : Value) :
    entered? known (.name key, v) = some (names.headD "", v) := by
  rw [entered?, indexOf?, bind_findIdx?_eq, find?_contains_eq hdistinct hnames hkey]
  cases names with
  | nil => cases hkey
  | cons first rest => rfl

/-- What is written for the members, under their first names. -/
def written (known : List (List String)) (fields : List (String × Option Value)) : Members :=
  (known.zip fields).filterMap fun (names, field) => field.2.map (names.headD "", ·)

theorem written_cons_some (names : List String) (key : String) (v : Value)
    (fields : List (String × Option Value)) :
    written (names :: known) ((key, some v) :: fields) =
      (names.headD "", v) :: written known fields := rfl

/-- Each member is written under one of its names. -/
def Spelled (known : List (List String)) (fields : List (String × Option Value)) : Prop :=
  List.Forall₂ (fun names field => field.1 ∈ names) known fields

namespace Spelled

variable {fields : List (String × Option Value)}

theorem headD_mem {names : List String} {key : String} (h : key ∈ names) :
    names.headD "" ∈ names := by
  cases names with
  | nil => cases h
  | cons first rest => exact List.mem_cons_self

/-- Only names of members are written. -/
theorem mem_flatten (h : Spelled known fields) {member : String × Value}
    (hmember : member ∈ written known fields) : member.1 ∈ known.flatten := by
  obtain ⟨⟨names, field⟩, hzip, hmember⟩ := List.mem_filterMap.mp hmember
  obtain ⟨v, -, rfl⟩ := Option.map_eq_some_iff.mp hmember
  have hname : field.1 ∈ names := (List.forall₂_iff_zip.mp h).2 hzip
  exact List.mem_flatten_of_mem (List.of_mem_zip hzip).1 (headD_mem hname)

/-- A name that belongs to none of the members is not written. -/
theorem lookup_eq_none (h : Spelled known fields) {name : String} (hname : name ∉ known.flatten) :
    (written known fields).lookup name = none := by
  rw [List.lookup_eq_none_iff]
  intro member hmember
  rw [bne_iff_ne]
  rintro rfl
  exact hname (h.mem_flatten hmember)

/-- **Each member is found under its first name**, if no two members share a name. -/
theorem lookup_written (h : Spelled known fields) (hdistinct : known.flatten.Nodup)
    {names : List String} {field : String × Option Value}
    (hmember : (names, field) ∈ known.zip fields) :
    (written known fields).lookup (names.headD "") = field.2 := by
  induction h with
  | nil => cases hmember
  | @cons first firstField known fields hfirst hrest ih =>
      obtain ⟨key, value⟩ := firstField
      rw [List.flatten_cons, List.nodup_append] at hdistinct
      obtain ⟨-, hdistinct, hapart⟩ := hdistinct
      -- What is written for later members stands under other names, so the first entry does not hide it.
      have hnew : ∀ {name}, name ∈ known.flatten → name ≠ first.headD "" :=
        fun hmem heq => hapart _ (headD_mem hfirst) _ hmem heq.symm
      rcases List.mem_cons.mp hmember with heq | hlater
      · obtain ⟨rfl, rfl⟩ := Prod.mk.inj heq
        cases value with
        | none => exact lookup_eq_none hrest fun hmem => hnew hmem rfl
        | some v => exact List.lookup_cons_self
      · have hother : names.headD "" ≠ first.headD "" :=
          have hmem := (List.forall₂_iff_zip.mp hrest).2 hlater
          hnew (List.mem_flatten_of_mem (List.of_mem_zip hlater).1 (headD_mem hmem))
        cases value with
        | none => exact ih hdistinct hlater
        | some v =>
            rw [written_cons_some, List.lookup_cons, beq_eq_false_iff_ne.mpr hother]
            exact ih hdistinct hlater

/-- What is written is read as what was given, under the first names. -/
theorem filterMap_entered? {part : List (List String)} (h : Spelled part fields)
    (hdistinct : known.flatten.Nodup) (hpart : part ⊆ known) :
    (fields.filterMap fun (name, v) => v.map (Key.name name, ·)).filterMap (entered? known) =
      written part fields := by
  induction h with
  | nil => rfl
  | @cons names field part fields hname _ ih =>
      obtain ⟨key, value⟩ := field
      obtain ⟨hnames, hpart⟩ := List.cons_subset.mp hpart
      cases value with
      | none => exact ih hpart
      | some v =>
          rw [written_cons_some, ← ih hpart]
          exact List.filterMap_cons_some (entered?_name hdistinct hnames hname v)

/-- No two members are written under one name. -/
theorem nodup_written (h : Spelled known fields) (hdistinct : known.flatten.Nodup) :
    ((written known fields).map Prod.fst).Nodup := by
  induction h with
  | nil => exact List.nodup_nil
  | @cons names field known fields hname hrest ih =>
      obtain ⟨key, value⟩ := field
      rw [List.flatten_cons, List.nodup_append] at hdistinct
      obtain ⟨-, hdistinct, hapart⟩ := hdistinct
      cases value with
      | none => exact ih hdistinct
      | some v =>
          rw [written_cons_some, List.map_cons, List.nodup_cons]
          refine ⟨fun hmem => ?_, ih hdistinct⟩
          obtain ⟨member, hmember, heq⟩ := List.mem_map.mp hmem
          exact hapart _ (headD_mem hname) _ (mem_flatten hrest hmember) heq.symm

end Spelled

/-- **Members are read back.** From a map with at most one entry for each member, under any of its
names, a reader gets what it makes of members that are each found under their first name. -/
theorem bind_members?_ofMembers {α : Type} {fields : List (String × Option Value)}
    {make : Members → Option α} {a : α} (h : Spelled known fields) (hdistinct : known.flatten.Nodup)
    (hmake : ∀ m : Members,
      List.Forall₂ (fun names field => m.lookup (names.headD "") = field.2) known fields →
        make m = some a) :
    ((Value.ofMembers fields).members? known >>= make) = some a := by
  have hread := h.filterMap_entered? hdistinct (List.Subset.refl known)
  have hmembers : (Value.ofMembers fields).members? known = some (written known fields) := by
    rw [← hread]
    exact ofEntries?_eq (hread ▸ h.nodup_written hdistinct)
  rw [hmembers]
  exact hmake _ (List.forall₂_iff_zip.mpr ⟨List.Forall₂.length_eq h, h.lookup_written hdistinct⟩)

/-! ## Single members -/

theorem orElse_of_lookup {α : Type} {m : Members} {name : String} {v : Value}
    (h : m.lookup name = some v) (read : Value → Option α) (absent : α) :
    m.orElse name read absent = read v := by
  rw [orElse, h]

/-- A value that is no null is read as such. -/
theorem nullable_eq {α : Type} {v : Value} (h : v ≠ .null) (read : Value → Option α) :
    Value.nullable read v = (read v).map some := by
  cases v with
  | null => exact absurd rfl h
  | _ => rfl

/-- **A member without a value is read as none**, and one with a value is read as that. -/
theorem optional_of_lookup {α : Type} {m : Members} {name : String} {write : α → Value}
    {read : Value → Option α} {o : Option α} (h : m.lookup name = o.map write)
    (hread : ∀ a, read (write a) = some a) (hnull : ∀ a, write a ≠ .null) :
    m.optional name read = some o := by
  rw [optional, orElse, h]
  cases o with
  | none => rfl
  | some a =>
      change Value.nullable read (write a) = _
      rw [nullable_eq (hnull a), hread]
      rfl

end Members

end ProgramGraph.Wire
