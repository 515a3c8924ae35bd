import Mathlib.Algebra.Group.Int.Defs
import Mathlib.Algebra.Group.Nat.Defs
import ProgramGraph.Json.Number

set_option autoImplicit false

/-! # Numbers are read back

A number at the front of a text is read the same whatever follows it, as long as a value may
end there. So what is written for an integer is read as that integer.
-/

namespace ProgramGraph.Json

open ProgramGraph.Wire

/-- What may stand behind a value: nothing, or a sign that ends it. -/
def EndsValue (rest : List Char) : Prop :=
  ∀ c, rest.head? = some c → c = ',' ∨ c = ']' ∨ c = '}'

theorem endsValue_nil : EndsValue [] := fun c h => by simp at h

theorem endsValue_comma (rest : List Char) : EndsValue (',' :: rest) :=
  fun c h => .inl (by simpa using h.symm)

theorem endsValue_bracket (rest : List Char) : EndsValue (']' :: rest) :=
  fun c h => .inr (.inl (by simpa using h.symm))

theorem endsValue_brace (rest : List Char) : EndsValue ('}' :: rest) :=
  fun c h => .inr (.inr (by simpa using h.symm))

/-- The sign that ends a value is no part of a number. -/
theorem EndsValue.cons_cases {c : Char} {rest : List Char} (h : EndsValue (c :: rest)) :
    c.isDigit = false ∧ c ≠ '.' ∧ c ≠ 'e' ∧ c ≠ 'E' := by
  rcases h c rfl with rfl | rfl | rfl <;> decide

/-! ## What follows a number -/

theorem splitMinus_append {text rest : List Char} (h : text ≠ []) :
    splitMinus (text ++ rest) = ((splitMinus text).1, (splitMinus text).2 ++ rest) := by
  cases text with
  | nil => exact absurd rfl h
  | cons c text =>
      by_cases hminus : c = '-' <;> simp [splitMinus, hminus]

section Append

variable {rest : List Char} (hrest : EndsValue rest)

include hrest

theorem takeWhile_digits_append (text : List Char) :
    (text ++ rest).takeWhile Char.isDigit = text.takeWhile Char.isDigit := by
  induction text with
  | nil =>
      cases rest with
      | nil => rfl
      | cons c more => simp [hrest.cons_cases.1]
  | cons c text ih =>
      rw [List.cons_append, List.takeWhile_cons, List.takeWhile_cons, ih]

theorem dropWhile_digits_append (text : List Char) :
    (text ++ rest).dropWhile Char.isDigit = text.dropWhile Char.isDigit ++ rest := by
  induction text with
  | nil =>
      cases rest with
      | nil => rfl
      | cons c more => simp [hrest.cons_cases.1]
  | cons c text ih =>
      rw [List.cons_append, List.dropWhile_cons, List.dropWhile_cons, ih]
      split <;> rfl

theorem someDigits?_append {text digits after : List Char}
    (h : someDigits? text = some (digits, after)) :
    someDigits? (text ++ rest) = some (digits, after ++ rest) := by
  unfold someDigits? at h ⊢
  rw [takeWhile_digits_append hrest, dropWhile_digits_append hrest]
  by_cases hempty : (text.takeWhile Char.isDigit).isEmpty = true
  · simp [hempty] at h
  · simp only [hempty, Bool.false_eq_true, if_false, Option.some.injEq, Prod.mk.injEq] at h ⊢
    exact ⟨h.1, by rw [h.2]⟩

theorem readWhole?_append {text whole after : List Char}
    (h : readWhole? text = some (whole, after)) :
    readWhole? (text ++ rest) = some (whole, after ++ rest) := by
  cases text with
  | nil => simp [readWhole?] at h
  | cons c text =>
      by_cases hzero : c = '0'
      · -- Behind a leading zero no digit may follow, neither of the text nor of what comes after it.
        have hhead : (text ++ rest).head?.any Char.isDigit = text.head?.any Char.isDigit := by
          cases text with
          | nil =>
              cases rest with
              | nil => rfl
              | cons d more => simp [hrest.cons_cases.1]
          | cons d text => rfl
        simp only [readWhole?, hzero, if_true, List.cons_append, hhead] at h ⊢
        by_cases hdigit : text.head?.any Char.isDigit = true
        · simp [hdigit] at h
        · simp only [hdigit, Bool.false_eq_true, if_false, Option.some.injEq, Prod.mk.injEq] at h ⊢
          exact ⟨h.1, by rw [h.2]⟩
      · simp only [readWhole?, hzero, if_false, List.cons_append] at h ⊢
        exact someDigits?_append hrest h

theorem readFraction?_append {text fraction after : List Char}
    (h : readFraction? text = some (fraction, after)) :
    readFraction? (text ++ rest) = some (fraction, after ++ rest) := by
  cases text with
  | nil =>
      obtain ⟨rfl, rfl⟩ : fraction = [] ∧ after = [] := by simpa [readFraction?, eq_comm] using h
      cases rest with
      | nil => rfl
      | cons c more => simp [readFraction?, hrest.cons_cases.2.1]
  | cons c text =>
      by_cases hpoint : c = '.'
      · simp only [readFraction?, hpoint, if_true, List.cons_append] at h ⊢
        exact someDigits?_append hrest h
      · simp only [readFraction?, hpoint, if_false, List.cons_append, Option.some.injEq,
          Prod.mk.injEq] at h ⊢
        exact ⟨h.1, by rw [← h.2, List.cons_append]⟩

theorem readSigned?_append {text after : List Char} {exponent : Int}
    (h : readSigned? text = some (exponent, after)) :
    readSigned? (text ++ rest) = some (exponent, after ++ rest) := by
  have hne : text ≠ [] := by
    rintro rfl
    simp [readSigned?, splitMinus, dropPlus, someDigits?] at h
  simp only [readSigned?, splitMinus_append hne] at h ⊢
  cases hread : someDigits? (if (splitMinus text).1 then (splitMinus text).2
      else dropPlus (splitMinus text).2) with
  | none => simp [hread] at h
  | some found =>
      obtain ⟨written, left⟩ := found
      -- A plus is dropped only where there was no minus, and both are signs of the text itself.
      have happend : (if (splitMinus text).1 then (splitMinus text).2 ++ rest
          else dropPlus ((splitMinus text).2 ++ rest)) =
            (if (splitMinus text).1 then (splitMinus text).2
              else dropPlus (splitMinus text).2) ++ rest := by
        split
        · rfl
        · cases hsplit : (splitMinus text).2 with
          | nil => simp_all [dropPlus, someDigits?]
          | cons c more => by_cases hplus : c = '+' <;> simp [dropPlus, hplus]
      rw [happend, someDigits?_append hrest hread]
      simp only [hread, Option.map_some, Option.some.injEq, Prod.mk.injEq] at h ⊢
      exact ⟨h.1, by rw [h.2]⟩

theorem readExponent?_append {text after : List Char} {exponent : Option Int}
    (h : readExponent? text = some (exponent, after)) :
    readExponent? (text ++ rest) = some (exponent, after ++ rest) := by
  cases text with
  | nil =>
      obtain ⟨rfl, rfl⟩ : exponent = none ∧ after = [] := by simpa [readExponent?, eq_comm] using h
      -- Where the text ends, what follows must not be taken for an exponent.
      cases rest with
      | nil => rfl
      | cons c more => simp [readExponent?, hrest.cons_cases.2.2]
  | cons c text =>
      by_cases hmark : (c = 'e' || c = 'E') = true
      · simp only [readExponent?, hmark, if_true, List.cons_append] at h ⊢
        cases hread : readSigned? text with
        | none => simp [hread] at h
        | some found =>
            obtain ⟨size, left⟩ := found
            rw [readSigned?_append hrest hread]
            simp only [hread, Option.map_some, Option.some.injEq, Prod.mk.injEq] at h ⊢
            exact ⟨h.1, by rw [h.2]⟩
      · simp only [readExponent?, hmark, Bool.false_eq_true, if_false, List.cons_append,
          Option.some.injEq, Prod.mk.injEq] at h ⊢
        exact ⟨h.1, by rw [← h.2, List.cons_append]⟩

/-- A number is read the same before any end of a value. -/
theorem readNumeral?_append {text after : List Char} {n : Numeral}
    (h : readNumeral? text = some (n, after)) :
    readNumeral? (text ++ rest) = some (n, after ++ rest) := by
  have hne : text ≠ [] := by
    rintro rfl
    simp [readNumeral?, splitMinus, readWhole?] at h
  simp only [readNumeral?, splitMinus_append hne, Option.bind_eq_bind,
    Option.bind_eq_some_iff, Prod.exists] at h ⊢
  obtain ⟨whole, afterWhole, hwhole, fraction, afterFraction, hfraction, exponent, left, hexponent,
    hpure⟩ := h
  refine ⟨whole, _, readWhole?_append hrest hwhole, fraction, _,
    readFraction?_append hrest hfraction, exponent, _, readExponent?_append hrest hexponent, ?_⟩
  simp only [pure, Option.some.injEq, Prod.mk.injEq] at hpure ⊢
  exact ⟨hpure.1, by rw [hpure.2]⟩

end Append

/-! ## Integers -/

theorem isDigit_of_mem {n : Nat} {c : Char} (h : c ∈ Nat.toDigits 10 n) : c.isDigit = true :=
  Nat.isDigit_of_mem_toDigits (by decide) (by decide) h

/-- No zero stands in front of other digits. -/
theorem head_toDigits {n : Nat} (h : 0 < n) (c : Char)
    (hc : (Nat.toDigits 10 n).head? = some c) : c ≠ '0' := by
  induction n using Nat.strongRecOn with
  | ind n ih =>
      rw [Nat.toDigits_eq_if (by decide)] at hc
      split at hc
      · obtain rfl : n.digitChar = c := by simpa using hc
        exact fun hzero => absurd (Nat.digitChar_eq_zero.mp hzero) (by omega)
      · refine ih (n / 10) (by omega) (by omega) ?_
        cases hdigits : Nat.toDigits 10 (n / 10) with
        | nil => exact absurd hdigits Nat.toDigits_ne_nil
        | cons d more => simpa [hdigits] using hc

theorem someDigits?_toDigits (n : Nat) :
    someDigits? (Nat.toDigits 10 n) = some (Nat.toDigits 10 n, []) := by
  have hall : ∀ c ∈ Nat.toDigits 10 n, c.isDigit = true := fun c hc => isDigit_of_mem hc
  have htake : (Nat.toDigits 10 n).takeWhile Char.isDigit = Nat.toDigits 10 n := by
    have h : (Nat.toDigits 10 n ++ []).takeWhile Char.isDigit = _ := List.takeWhile_append_of_pos hall
    simpa using h
  have hdrop : (Nat.toDigits 10 n).dropWhile Char.isDigit = [] := by
    have h : (Nat.toDigits 10 n ++ []).dropWhile Char.isDigit = _ := List.dropWhile_append_of_pos hall
    simpa using h
  simp [someDigits?, htake, hdrop]

theorem readWhole?_toDigits (n : Nat) :
    readWhole? (Nat.toDigits 10 n) = some (Nat.toDigits 10 n, []) := by
  by_cases hzero : n = 0
  · subst hzero
    rfl
  · have hread := someDigits?_toDigits n
    have hhead := head_toDigits (n := n) (by omega)
    cases hdigits : Nat.toDigits 10 n with
    | nil => exact absurd hdigits Nat.toDigits_ne_nil
    | cons c more =>
        rw [hdigits] at hread hhead
        rw [readWhole?, if_neg (hhead c rfl), hread]

/-- The digits of a number, with a minus in front or not, are read as a number. -/
theorem readNumeral?_toDigits (negative : Bool) (n : Nat) :
    readNumeral? ((if negative then ['-'] else []) ++ Nat.toDigits 10 n) =
      some (⟨negative, Nat.toDigits 10 n, [], none⟩, []) := by
  have hsplit : splitMinus ((if negative then ['-'] else []) ++ Nat.toDigits 10 n) =
      (negative, Nat.toDigits 10 n) := by
    cases negative with
    | true => rfl
    | false =>
        cases hdigits : Nat.toDigits 10 n with
        | nil => exact absurd hdigits Nat.toDigits_ne_nil
        | cons c more =>
            have hminus : c ≠ '-' := by
              rintro rfl
              have hdigit : ('-').isDigit = true := isDigit_of_mem (hdigits ▸ List.mem_cons_self)
              exact absurd hdigit (by decide)
            simp [splitMinus, hminus]
  simp [readNumeral?, hsplit, readWhole?_toDigits, readFraction?, readExponent?]

theorem natOfDigits_toDigits (n : Nat) : Decimal.natOfDigits (Nat.toDigits 10 n) = n :=
  Nat.ofDigitChars_ten_toDigits

/-- An integer of the wire is written as its digits, behind a minus if it is negative. -/
theorem toList_toString_int (n : Int) :
    (toString n).toList = (if n < 0 then ['-'] else []) ++ Nat.toDigits 10 n.natAbs := by
  cases n with
  | ofNat m =>
      have hpos : ¬(Int.ofNat m < 0) := Int.not_lt.mpr (Int.natCast_nonneg m)
      rw [if_neg hpos]
      show (toString m).toList = _
      simp
  | negSucc m =>
      show ("-" ++ toString (m + 1)).toList = _
      simp [Int.negSucc_lt_zero]

/-- **A written integer is read back**, if it fits 64 bits with or without sign. -/
theorem readNumeral?_int {n : Int} (hlow : -(2 ^ 63 : Int) ≤ n) (hhigh : n < 2 ^ 64) :
    ∃ numeral, readNumeral? (toString n).toList = some (numeral, []) ∧
      numeral.value = .integer n := by
  refine ⟨⟨decide (n < 0), Nat.toDigits 10 n.natAbs, [], none⟩, ?_, ?_⟩
  · have hread := readNumeral?_toDigits (decide (n < 0)) n.natAbs
    rw [toList_toString_int]
    simpa using hread
  · have hmax : wordMax = 2 ^ 64 - 1 := rfl
    have hhalf : UInt64.size / 2 = 2 ^ 63 := rfl
    rw [Numeral.value, natOfDigits_toDigits, hmax, hhalf]
    by_cases hneg : n < 0
    · have hrange : 0 < n.natAbs ∧ n.natAbs ≤ 2 ^ 63 := by omega
      have hvalue : -(n.natAbs : Int) = n := by omega
      rw [if_neg (by simp), if_pos (by simpa using hneg), if_pos (by simpa using hrange), hvalue]
    · have hrange : n.natAbs ≤ 2 ^ 64 - 1 := by omega
      have hvalue : (n.natAbs : Int) = n := by omega
      rw [if_neg (by simp), if_neg (by simpa using hneg), if_pos hrange, hvalue]

end ProgramGraph.Json
