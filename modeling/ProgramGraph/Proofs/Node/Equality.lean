import ProgramGraph.Node.Basic

set_option autoImplicit false

/-! # Equal content

Floats are compared as numbers, and what is no number is not even equal to itself. Everything else is
compared as it stands, so without such values equal maps of properties have equal content.
-/

namespace ProgramGraph

/-- The value is a number. -/
def Binary64.IsNumber (x : Binary64) : Prop := x.toFloat.isNaN = false

instance (x : Binary64) : Decidable x.IsNumber := inferInstanceAs (Decidable (_ = _))

/-- A number is equal to itself. -/
theorem Binary64.beq_self {x : Binary64} (h : x.IsNumber) : (x == x) = true := by
  -- Signs, infinities and zeros compare by what they are, and a finite value by its two numbers.
  have hunpacked : ∀ u : Float.Model.UnpackedFloat, u.isNaN = false → u.beq u = true := by
    intro u hu
    cases u with
    | notANumber => cases hu
    | infinity sign => cases sign <;> rfl
    | zero sign => cases sign <;> rfl
    | finite sign mantissa exponent hpos =>
        have hexponent : compare exponent exponent = .eq := Std.ReflCmp.compare_self
        have hmantissa : compare mantissa mantissa = .eq := Std.ReflCmp.compare_self
        have hboth : (compare exponent exponent).then (compare mantissa mantissa) = .eq := by
          rw [hexponent, hmantissa]
          rfl
        cases sign with
        | positive => exact decide_eq_true hboth
        | negative => exact decide_eq_true (congrArg Ordering.swap hboth)
  exact hunpacked x.toFloat.toModel.unpack h

/-- Every float among the values is a number. -/
def Properties.HasNumbers (props : Properties) : Prop :=
  ∀ (key : String) (x : Binary64), props[key]? = some (.float x) → x.IsNumber

/-- The value is no float, or a number. -/
def Property.isComparable : Property → Bool
  | .float x => decide x.IsNumber
  | _ => true

theorem Property.isComparable_iff (p : Property) :
    p.isComparable = true ↔ ∀ x, p = .float x → x.IsNumber := by
  cases p <;> simp [isComparable]

instance (props : Properties) : Decidable props.HasNumbers :=
  decidable_of_iff ((props.toList.all fun entry => entry.2.isComparable) = true) <| by
    simp only [List.all_eq_true, Property.isComparable_iff, Properties.HasNumbers, Prod.forall,
      Std.TreeMap.mem_toList_iff_getElem?_eq_some]
    exact ⟨fun h key x hkey => h key _ hkey x rfl, fun h key p hkey x hp => h key x (hp ▸ hkey)⟩

/-- A value is equal to itself. -/
theorem Property.beq_self {p : Property} (h : ∀ x, p = .float x → x.IsNumber) : (p == p) = true := by
  cases p with
  | float x => exact Binary64.beq_self (h x rfl)
  | null => rfl
  | bool b => exact beq_self_eq_true b
  | int n => exact beq_self_eq_true n
  | text s => exact beq_self_eq_true s
  | texts items => exact beq_self_eq_true items

/-- A value is equal to itself only, if it is no float. -/
theorem Property.eq_of_beq {p q : Property} (hq : ∀ x, q ≠ .float x) (h : (p == q) = true) : p = q := by
  cases p <;> cases q
  case null.null => rfl
  case bool.bool a b => exact congrArg Property.bool (LawfulBEq.eq_of_beq h)
  case int.int a b => exact congrArg Property.int (LawfulBEq.eq_of_beq h)
  case float.float x y => exact absurd rfl (hq y)
  case text.text a b => exact congrArg Property.text (LawfulBEq.eq_of_beq h)
  case texts.texts a b => exact congrArg Property.texts (LawfulBEq.eq_of_beq h)
  all_goals cases h

/-- Properties that are the same have the same values under all names, if none of them is a float. -/
theorem Properties.getElem?_of_same {a b : Properties} (hb : ∀ (key : String) (x : Binary64), b[key]? ≠ some (.float x))
    (h : a.same b = true) (key : String) : a[key]? = b[key]? := by
  have hlists : ∀ xs ys : Fields, (∀ entry ∈ ys, ∀ x, entry.2 ≠ .float x) → (xs == ys) = true → xs = ys := by
    intro xs
    induction xs with
    | nil =>
        intro ys _ hsame
        cases ys with
        | nil => rfl
        | cons entry rest => cases hsame
    | cons first rest ih =>
        intro ys hys hsame
        cases ys with
        | nil => cases hsame
        | cons entry more =>
            replace hsame : ((first.1 == entry.1 && first.2 == entry.2) && rest == more) = true := hsame
            rw [Bool.and_eq_true, Bool.and_eq_true] at hsame
            obtain ⟨⟨hname, hvalue⟩, hrest⟩ := hsame
            have hfirst : first = entry :=
              Prod.ext (LawfulBEq.eq_of_beq hname) (Property.eq_of_beq (hys entry List.mem_cons_self) hvalue)
            rw [hfirst, ih more (fun e he => hys e (List.mem_cons_of_mem _ he)) hrest]
  -- Both are listed by their names, so equal lists mean equal values under each name.
  have heq : a.toList = b.toList := by
    refine hlists _ _ (fun entry hentry x hx => hb entry.1 x ?_) h
    rw [← hx]
    exact Std.TreeMap.mem_toList_iff_getElem?_eq_some.mp hentry
  refine Option.ext fun value => ?_
  rw [← Std.TreeMap.mem_toList_iff_getElem?_eq_some, heq, Std.TreeMap.mem_toList_iff_getElem?_eq_some]

/-- Properties with the same values under all names are the same. -/
theorem Properties.same_of_getElem? {a b : Properties} (hnumbers : a.HasNumbers)
    (h : ∀ key : String, a[key]? = b[key]?) : a.same b = true := by
  have heq : a.toList = b.toList := (Std.TreeMap.Equiv.of_forall_constGet?_eq h).toList_eq
  have hself : ∀ entries : Fields, (∀ entry ∈ entries, ∀ x, entry.2 = .float x → x.IsNumber) →
      (entries == entries) = true := by
    intro entries
    induction entries with
    | nil => exact fun _ => rfl
    | cons entry rest ih =>
        intro hall
        have hfirst := Property.beq_self (hall entry List.mem_cons_self)
        have hrest := ih fun e he => hall e (List.mem_cons_of_mem _ he)
        show ((entry.1 == entry.1 && entry.2 == entry.2) && rest == rest) = true
        rw [hfirst, hrest, beq_self_eq_true]
        rfl
  rw [same, ← heq]
  refine hself _ fun entry hentry x hx => hnumbers entry.1 x ?_
  rw [← hx]
  exact Std.TreeMap.mem_toList_iff_getElem?_eq_some.mp hentry

/-- A node has the content that it has. -/
theorem Node.sameContent_self {n : Node} (h : n.properties.HasNumbers) : n.sameContent n = true := by
  rw [sameContent, Properties.same_of_getElem? h fun _ => rfl, Bool.and_true, beq_self_eq_true]

end ProgramGraph
