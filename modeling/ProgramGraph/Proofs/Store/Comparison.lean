import ProgramGraph.Proofs.Property.Fields
import ProgramGraph.Store.Filter

set_option autoImplicit false

/-! # What a comparison says

Two values are compared on one footing for all operators (`Property.footing`): as numbers, as lists,
as texts, or not at all. On it each operator says what it says of two numbers, two lists or two
texts (`Comparison.evaluate_eq_onFooting`). Floats come with their own comparisons, which are one
order looked at from six sides; what is no number has no order at all.
-/

namespace ProgramGraph

/-! ## The order of floats -/

namespace Float

open Float.Model

/-- The order of two floats, from what they are made of. -/
def weigh (x y : Float) : Option Ordering := x.toModel.unpack.compare y.toModel.unpack

theorem lt_iff_weigh {x y : Float} : x < y ↔ weigh x y = some .lt := by
  show decide ((weigh x y == some .lt) = true) = true ↔ _
  simp

theorem le_iff_weigh {x y : Float} : x ≤ y ↔ (weigh x y).any (·.isLE) = true := by
  show decide ((weigh x y).any (·.isLE) = true) = true ↔ _
  simp

theorem beq_iff_weigh {x y : Float} : (x == y) = true ↔ weigh x y = some .eq := by
  show (weigh x y == some .eq) = true ↔ _
  simp

/-- Seen from the other side, the order is the other way round. -/
theorem weigh_swap (x y : Float) : weigh y x = (weigh x y).map Ordering.swap := by
  -- Only two finite values of one sign have more than their constructors compared.
  have hunpacked : ∀ u v : UnpackedFloat, v.compare u = (u.compare v).map Ordering.swap := by
    intro u v
    cases u with
    | notANumber => cases v <;> rfl
    | infinity s =>
        cases v with
        | infinity t => cases s <;> cases t <;> rfl
        | _ => cases s <;> rfl
    | zero s =>
        cases v with
        | infinity t => cases t <;> rfl
        | finite t => cases t <;> rfl
        | _ => rfl
    | finite s m e _ =>
        cases v with
        | infinity t => cases t <;> rfl
        | notANumber => cases s <;> rfl
        | zero t => cases s <;> rfl
        | finite t m' e' _ =>
            have hboth : (compare e' e).then (compare m' m) =
                ((compare e e').then (compare m m')).swap := by
              rw [Ordering.swap_then, ← Std.OrientedCmp.eq_swap, ← Std.OrientedCmp.eq_swap]
            cases s <;> cases t
            · exact congrArg some (congrArg Ordering.swap hboth)
            · rfl
            · rfl
            · exact congrArg some hboth
  exact hunpacked x.toModel.unpack y.toModel.unpack

theorem order?_eq_weigh (x y : Float) : order? x y = weigh x y := by
  unfold order?
  simp only [lt_iff_weigh, beq_iff_weigh, weigh_swap x y]
  cases weigh x y with
  | none => rfl
  | some order => cases order <;> rfl

end Float

/-! ## Operators -/

namespace Comparison

/-- What the operator says of an order. -/
def onOrder (op : Comparison) (order : Option Ordering) : Bool :=
  match op with
  | .eq => order == some .eq
  | .ne => !(order == some .eq)
  | .gt => order == some .gt
  | .ge => order == some .gt || order == some .eq
  | .lt => order == some .lt
  | .le => order == some .lt || order == some .eq

/-- What the operator says of two numbers. -/
def onNumbers (op : Comparison) (x y : Float) : Bool :=
  match op with
  | .eq => x == y
  | .ne => x != y
  | .gt => x > y
  | .ge => x ≥ y
  | .lt => x < y
  | .le => x ≤ y

/-- What the operator says of two texts. -/
def onTexts (op : Comparison) (a b : String) : Bool :=
  match op with
  | .eq => a = b
  | .ne => a ≠ b
  | .gt => a > b
  | .ge => a ≥ b
  | .lt => a < b
  | .le => a ≤ b

/-- What the operator says of two lists, which have no order. -/
def onLists (op : Comparison) (xs ys : List String) : Bool :=
  match op with
  | .eq => xs = ys
  | .ne => xs ≠ ys
  | _ => false

theorem onOrder_order? (op : Comparison) (x y : Float) :
    op.onOrder (Float.order? x y) = op.onNumbers x y := by
  have heq : (x == y) = (Float.weigh x y == some .eq) := rfl
  have hne : (x != y) = !(Float.weigh x y == some .eq) := rfl
  rw [Float.order?_eq_weigh]
  unfold onOrder onNumbers
  simp only [gt_iff_lt, ge_iff_le, Float.lt_iff_weigh, Float.le_iff_weigh, Float.weigh_swap x y, heq, hne]
  cases Float.weigh x y with
  | none => cases op <;> rfl
  | some order => cases op <;> cases order <;> rfl

theorem onOrder_compare (op : Comparison) (a b : String) :
    op.onOrder (some (compare a b)) = op.onTexts a b := by
  have hcompare : compare a b = if a < b then .lt else if a = b then .eq else .gt := rfl
  have hle : a ≤ b ↔ ¬b < a := String.not_lt.symm
  have hge : b ≤ a ↔ ¬a < b := String.not_lt.symm
  unfold onOrder onTexts
  simp only [gt_iff_lt, ge_iff_le, hle, hge, hcompare]
  by_cases hlt : a < b
  · have hne : a ≠ b := fun heq => String.lt_irrefl b (heq ▸ hlt)
    have hgt : ¬b < a := String.lt_asymm hlt
    cases op <;> simp [hlt, hne, hgt]
  · by_cases heq : a = b
    · cases op <;> simp [heq, String.lt_irrefl]
    · have hgt : b < a := by
        refine Decidable.not_not.mp fun hnot => heq ?_
        exact String.le_antisymm (String.not_lt.mp hnot) (String.not_lt.mp hlt)
      cases op <;> simp [hlt, heq, hgt]

end Comparison

/-! ## Footings -/

/-- What two values are compared as. -/
inductive Footing where
  /-- Two numbers. -/
  | numbers (x y : Float)
  /-- A number beside something that is none. -/
  | noNumber
  /-- Two lists. -/
  | lists (xs ys : List String)
  /-- A list or null beside something else: nothing is compared. -/
  | apart
  /-- Two texts. -/
  | texts (a b : String)

/-- What an actual and an expected value are compared as. If one of them is a number, both are taken
as numbers. Otherwise they are numbers where both have a number view, and texts as a rule. -/
def Property.footing (actual expected : Property) : Footing :=
  if actual.isNumeric || expected.isNumeric then
    match actual.number?, expected.number? with
    | some x, some y => .numbers x y
    | _, _ => .noNumber
  else
    match actual, expected with
    | .texts xs, .texts ys => .lists xs ys
    | .texts _, _ | _, .texts _ | .null, _ | _, .null => .apart
    | _, _ =>
        match actual.number?, expected.number? with
        | some x, some y => .numbers x y
        | _, _ => .texts actual.display expected.display

namespace Footing

/-- The order of the two values. -/
def order? : Footing → Option Ordering
  | .numbers x y => Float.order? x y
  | .texts a b => some (compare a b)
  | _ => none

/-- The two values are equal. -/
def equal : Footing → Bool
  | .lists xs ys => xs == ys
  | footing => footing.order? == some .eq

end Footing

namespace Comparison

/-- What the operator says of two values on their footing. -/
def onFooting (op : Comparison) : Footing → Bool
  | .numbers x y => op.onNumbers x y
  | .noNumber => false
  | .lists xs ys => op.onLists xs ys
  | .apart => op = .ne
  | .texts a b => op.onTexts a b

theorem order?_eq_footing (actual expected : Property) :
    order? actual expected = (actual.footing expected).order? := by
  unfold order? Property.footing
  by_cases hnumeric : (actual.isNumeric || expected.isNumeric) = true
  · rw [if_pos hnumeric, if_pos hnumeric]
    cases actual.number? <;> cases expected.number? <;> rfl
  · -- Without a number among them, two values are told apart by what they are. Their number views are
    -- looked at only where neither is a list or null.
    rw [if_neg hnumeric, if_neg hnumeric, Property.order?]
    generalize hactual : actual.number? = x
    generalize hexpected : expected.number? = y
    cases actual <;> cases expected <;> first
      | exact absurd rfl hnumeric
      | rfl
      | (cases x <;> cases y <;> rfl)

/-- Lists are compared only where both values are lists. -/
theorem footing_ne_lists {actual expected : Property} (h : ∀ items, actual ≠ .texts items)
    (xs ys : List String) : actual.footing expected ≠ .lists xs ys := by
  intro hfooting
  unfold Property.footing at hfooting
  split at hfooting
  · split at hfooting <;> cases hfooting
  · split at hfooting
    case h_1 => exact h _ rfl
    case h_6 => split at hfooting <;> cases hfooting
    all_goals cases hfooting

theorem equal_eq_footing {actual : Property} (h : actual ≠ .null) (expected : Property) :
    equal actual expected = (actual.footing expected).equal := by
  by_cases hactual : ∃ items, actual = .texts items
  · obtain ⟨items, rfl⟩ := hactual
    cases expected <;> rfl
  · have hplain : (actual.footing expected).equal = (order? actual expected == some .eq) := by
      rw [order?_eq_footing]
      cases hfooting : actual.footing expected with
      | lists xs ys => exact absurd hfooting (footing_ne_lists (not_exists.mp hactual) xs ys)
      | _ => rfl
    rw [hplain]
    cases actual with
    | null => exact absurd rfl h
    | texts items => exact absurd ⟨items, rfl⟩ hactual
    | _ => cases expected <;> rfl

/-- On every footing but one, the operator says the same as its order. -/
theorem holds_eq_onFooting {op : Comparison} {actual expected : Property} (hnull : actual ≠ .null)
    (h : op = .ne → actual.footing expected ≠ .noNumber) :
    op.holds actual expected = op.onFooting (actual.footing expected) := by
  have hequal := equal_eq_footing hnull expected
  have horder := order?_eq_footing actual expected
  unfold holds
  rw [hequal, horder]
  cases hfooting : actual.footing expected with
  | numbers x y =>
      rw [onFooting, ← onOrder_order?]
      cases op <;> rfl
  | noNumber =>
      -- There is no order, so all operators fail but the one that is the negation of another.
      cases op with
      | ne => exact absurd hfooting (h rfl)
      | _ => rfl
  | lists xs ys => cases op <;> simp [onFooting, onLists, Footing.equal, Footing.order?, beq_eq_decide]
  | apart => cases op <;> rfl
  | texts a b =>
      rw [onFooting, ← onOrder_compare]
      cases op <;> rfl

/-- **A comparison of a property** fails where the property is missing or null, and says elsewhere what
its operator says on the footing of the two values. Left open is only what it is to be unequal to a
number for a value that is none. -/
theorem evaluate_eq_onFooting {op : Comparison} {props : Properties} {key : String} {expected : Property}
    (h : op = .ne → ∀ actual, props.given? key = some actual → actual.footing expected ≠ .noNumber) :
    op.evaluate props[key]? expected =
      (props.given? key).any fun actual => op.onFooting (actual.footing expected) := by
  cases hvalue : props[key]? with
  | none =>
      rw [Properties.given?_eq_none hvalue]
      rfl
  | some actual =>
      by_cases hnull : actual = .null
      · rw [hnull] at hvalue ⊢
        rw [Properties.given?_eq_none_of_null hvalue]
        rfl
      · have hgiven := Properties.given?_eq_some hvalue hnull
        rw [hgiven, Option.any_some, ← holds_eq_onFooting hnull fun hop => h hop actual hgiven]
        cases actual with
        | null => exact absurd rfl hnull
        | _ => rfl

/-- Two numerals for one number are not unequal. -/
theorem evaluate_ne_numeral :
    Comparison.ne.evaluate ((∅ : Properties).insert "score" (.text "2.50"))["score"]? (.text "2.5") =
      false := by
  have hgiven : Properties.given? ((∅ : Properties).insert "score" (.text "2.50")) "score" =
      some (.text "2.50") := by
    simp [Properties.given?]
  rw [evaluate_eq_onFooting, hgiven]
  · decide
  · intro _ actual hactual hfooting
    obtain rfl := Option.some.inj (hgiven.symm.trans hactual)
    cases hfooting

/-- Two numerals are numbers, a list is no text, and a text that is no numeral is unequal to a number. -/
theorem evaluate_not_as_texts :
    (Comparison.gt.evaluate (some (.text "10")) (.text "9") = true ∧ Comparison.gt.onTexts "10" "9" = false) ∧
    (Comparison.eq.evaluate (some (.texts ["a"])) (.text "[a]") = false ∧
      Comparison.eq.onTexts (Property.texts ["a"]).display (Property.text "[a]").display = true) ∧
    Comparison.ne.evaluate (some (.text "parse")) (.int 1) = true := by
  decide

end Comparison

end ProgramGraph
