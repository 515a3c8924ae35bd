import ProgramGraph.Proofs.Store.Comparison
import ProgramGraph.Store.Narrowing

set_option autoImplicit false

/-! # What the database lets through

The database refuses no value that a condition accepts (`admitsValue_of_evaluate`). Where the
keys of a filter are found under their own name, it therefore refuses no properties that the
filter accepts (`Filter.narrows_of_plain`).
-/

namespace ProgramGraph

namespace Comparison

/-- Between a value without a number view and a number holds nothing but being unequal. -/
theorem holds_number {op : Comparison} {actual expected : Property} (hop : op ≠ .ne) (hnull : actual ≠ .null)
    (hactual : actual.number? = none) (hexpected : expected.isNumeric = true) :
    op.holds actual expected = false := by
  have hfooting : actual.footing expected = .noNumber := by
    unfold Property.footing
    rw [hexpected, Bool.or_true, if_pos rfl, hactual]
  rw [holds_eq_onFooting hnull fun hne => absurd hne hop, hfooting, onFooting]

/-- A value that is not a text has an order to a plain text only if it is shown alike. -/
theorem equal_plain {s : String} {actual : Property} (hplain : isPlainText s = true)
    (h : equal actual (.text s) = true) : actual = .text s := by
  simp only [isPlainText, Bool.and_eq_true, bne_iff_ne, ne_eq, Option.isNone_iff_eq_none] at hplain
  obtain ⟨⟨htrue, hfalse⟩, hnumber⟩ := hplain
  cases actual with
  | null => simp [equal, order?, Property.isNumeric, Property.order?, Property.isOrdered] at h
  | bool b =>
      have hdisplay : (Property.bool b).display = s := by
        simpa [equal, order?, Property.isNumeric, Property.order?, Property.isOrdered, hnumber,
          Property.display] using h
      cases b
      · exact absurd hdisplay.symm hfalse
      · exact absurd hdisplay.symm htrue
  | int n => simp [equal, order?, Property.isNumeric, hnumber] at h
  | float x => simp [equal, order?, Property.isNumeric, hnumber] at h
  | text t =>
      have heq : t = s := by
        simpa [equal, order?, Property.isNumeric, Property.order?, Property.isOrdered, hnumber,
          Property.display] using h
      rw [heq]
  | texts items => simp [equal, Property.looselyEquals, Property.order?, Property.isOrdered] at h

end Comparison

namespace Filter

/-- The database refuses no value for which the condition holds. -/
theorem Condition.admitsValue_of_evaluate {c : Condition} {stored : Property}
    (h : c.op.evaluate (some stored) c.value = true) : c.admitsValue stored = true := by
  obtain ⟨key, op, value⟩ := c
  by_cases hnull : stored = .null
  · simp [hnull, Comparison.evaluate] at h
  · have hholds : op.holds stored value = true := by
      cases stored <;> simp_all [Comparison.evaluate]
    by_cases hne : op = .ne
    · cases stored <;> simp_all [admitsValue]
    · have hnumber : value.isNumeric = true → stored.number?.isSome = true := by
        intro hvalue
        cases hstored : stored.number? with
        | none => simp [Comparison.holds_number hne hnull hstored hvalue] at hholds
        | some x => rfl
      cases value with
      | int n => cases stored <;> simp_all [admitsValue, Property.isNumeric, Property.number?]
      | float x => cases stored <;> simp_all [admitsValue, Property.isNumeric, Property.number?]
      | text s =>
          cases op with
          | eq =>
              cases hplain : isPlainText s with
              | false => cases stored <;> simp_all [admitsValue]
              | true =>
                  obtain rfl := Comparison.equal_plain hplain hholds
                  simp [admitsValue]
          | _ => cases stored <;> simp_all [admitsValue]
      | _ => cases op <;> cases stored <;> simp_all [admitsValue]

/-- The database finds a property of this name under the name itself. -/
def isPlainKey (key : String) : Bool :=
  key.toList.all fun c => c != '\"' && c != '\\' && c != '\x00'

/-- Whatever properties the filter accepts the database lets through, and it always answers. -/
def Narrows (filter : Filter) : Prop :=
  ∀ props, ∃ admitted, filter.admits props = .ok admitted ∧
    (filter.acceptsProperties props = true → admitted = true)

theorem Condition.admits_of_plain {c : Condition} (hkey : isPlainKey c.key = true)
    (props : Properties) : c.admits props = .ok (props[c.key]?.any c.admitsValue) := by
  simp only [isPlainKey, List.all_eq_true, Bool.and_eq_true, bne_iff_ne, ne_eq] at hkey
  have hquote : c.key.toList.contains '\"' = false := by
    simp only [List.contains_eq_mem, decide_eq_false_iff_not]
    exact fun h => (hkey _ h).1.1 rfl
  have hslash : c.key.toList.contains '\\' = false := by
    simp only [List.contains_eq_mem, decide_eq_false_iff_not]
    exact fun h => (hkey _ h).1.2 rfl
  have hzero : c.key.toList.contains '\x00' = false := by
    simp only [List.contains_eq_mem, decide_eq_false_iff_not]
    exact fun h => (hkey _ h).2 rfl
  simp only [admits, foundName?, hquote, hslash, hzero, Bool.false_eq_true, if_false,
    Option.any_some]

/-- A filter with plain keys only narrows. -/
theorem narrows_of_plain {filter : Filter} (h : ∀ c ∈ filter, isPlainKey c.key = true) :
    filter.Narrows := by
  intro props
  induction filter with
  | nil => exact ⟨true, rfl, fun _ => rfl⟩
  | cons c rest ih =>
      obtain ⟨admitted, hadmits, hsound⟩ := ih fun d hd => h d (List.mem_cons_of_mem _ hd)
      have hc := Condition.admits_of_plain (h c List.mem_cons_self) props
      refine ⟨props[c.key]?.any c.admitsValue && admitted, ?_, ?_⟩
      · cases hfirst : props[c.key]?.any c.admitsValue with
        | false =>
            simp only [Filter.admits, List.allM, hc, hfirst, Bool.false_and]
            rfl
        | true =>
            simp only [Filter.admits, List.allM, hc, hfirst, Bool.true_and]
            exact hadmits
      · intro haccepts
        simp only [acceptsProperties, List.all_cons, Bool.and_eq_true] at haccepts
        obtain ⟨hholds, hrest⟩ := haccepts
        rw [hsound hrest, Bool.and_true]
        cases hstored : props[c.key]? with
        | none => simp [Condition.holds, Comparison.evaluate, hstored] at hholds
        | some stored =>
            rw [Condition.holds, hstored] at hholds
            simpa using Condition.admitsValue_of_evaluate hholds

end Filter

end ProgramGraph
