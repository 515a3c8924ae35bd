import ProgramGraph.Decimal.Style
import ProgramGraph.Proofs.Decimal.Reader
import ProgramGraph.Proofs.Json.Number

set_option autoImplicit false

/-! # Floats that are written and read again

The search for the shortest digits takes a decimal only if it lies among the numbers that round to the
magnitude, and where it finds none the whole expansion is the magnitude itself. Laid out with a point, the
digits are read as a whole number over a power of ten, which is that decimal. So a float that is written
with a point is read again as the same float (`read?_render`).
-/

namespace ProgramGraph.Decimal

open Float.Model Float.Model.UnpackedFloat

/-! ## The shortest digits round to the magnitude -/

theorem zpow_toNat {a : ℚ} (ha : a ≠ 0) (n : Int) : a ^ n.toNat / a ^ (-n).toNat = a ^ n := by
  rw [← zpow_natCast, ← zpow_natCast, ← zpow_sub₀ ha]
  congr 1
  omega

namespace Magnitude

variable {x : Magnitude}

/-- The quarter of the last place, in the unit of a decimal grid. -/
theorem quarterPlace_eq (x : Magnitude) (grid : Int) :
    ((x.quarterPlace grid).1 : ℚ) * 10 ^ grid = (x.quarterPlace grid).2 * (2 ^ x.exponent / 4) := by
  have hten := zpow_toNat (by norm_num : (10 : ℚ) ≠ 0) grid
  have htwo := zpow_toNat (by norm_num : (2 : ℚ) ≠ 0) (x.exponent - 2)
  have hquarter : (2 : ℚ) ^ (x.exponent - 2) = 2 ^ x.exponent / 4 := by
    rw [zpow_sub₀ two_ne_zero]
    norm_num
  rw [← hquarter, ← htwo, ← hten]
  simp only [quarterPlace, powerOfTen, Nat.pow_eq, Nat.shiftLeft_eq]
  push_cast
  field_simp

theorem covers_of_roundsFrom (hpos : 0 < x.significand) {count : Nat} {grid : Int}
    (h : x.roundsFrom count grid = true) : x.Covers (count * 10 ^ grid) := by
  have hquarter := x.quarterPlace_eq grid
  have hden : (0 : ℚ) < (x.quarterPlace grid).2 := by
    simp only [quarterPlace, powerOfTen, Nat.pow_eq, Nat.shiftLeft_eq]
    positivity
  unfold roundsFrom at h
  generalize x.quarterPlace grid = place at hquarter hden h
  obtain ⟨num, den⟩ := place
  dsimp only at hquarter hden h
  -- A comparison of whole numbers is one of quarters of the last place with the decimal.
  have hunit : (0 : ℚ) < 10 ^ grid := by positivity
  have hquarters : ∀ quarters : Nat,
      ((quarters * num : Nat) : ℚ) * 10 ^ grid = den * (quarters * (2 ^ x.exponent / 4)) := by
    intro quarters
    push_cast
    rw [mul_assoc, hquarter]
    ring
  have hcount : ((count * den : Nat) : ℚ) * 10 ^ grid = den * (count * 10 ^ grid) := by
    push_cast
    ring
  have hle : ∀ {a b : Nat} {r s : ℚ}, (a : ℚ) * 10 ^ grid = den * r → (b : ℚ) * 10 ^ grid = den * s →
      a ≤ b → r ≤ s := fun ha hb hab => le_of_mul_le_mul_left
    (ha ▸ hb ▸ mul_le_mul_of_nonneg_right (Nat.cast_le.mpr hab) hunit.le) hden
  have hlt : ∀ {a b : Nat} {r s : ℚ}, (a : ℚ) * 10 ^ grid = den * r → (b : ℚ) * 10 ^ grid = den * s →
      a < b → r < s := fun ha hb hab => lt_of_mul_lt_mul_left
    (ha ▸ hb ▸ mul_lt_mul_of_pos_right (Nat.cast_lt.mpr hab) hunit) hden.le
  have hlow : ((4 * x.significand - (if x.narrowBelow then 1 else 2) : Nat) : ℚ) * (2 ^ x.exponent / 4) =
      (x.significand - x.gapBelow) * 2 ^ x.exponent := by
    rw [Nat.cast_sub (by split <;> omega), gapBelow]
    split <;> push_cast <;> ring
  have hhigh : ((4 * x.significand + 2 : Nat) : ℚ) * (2 ^ x.exponent / 4) =
      (x.significand + 1 / 2) * 2 ^ x.exponent := by
    push_cast
    ring
  have hlowest := hquarters (4 * x.significand - (if x.narrowBelow then 1 else 2))
  have hhighest := hquarters (4 * x.significand + 2)
  rw [hlow] at hlowest
  rw [hhigh] at hhighest
  split at h
  · rename_i heven
    obtain ⟨hfirst, hsecond⟩ := Bool.and_eq_true_iff.mp h
    exact ⟨hle hlowest hcount (of_decide_eq_true hfirst), hle hcount hhighest (of_decide_eq_true hsecond),
      fun hodd => by omega⟩
  · obtain ⟨hfirst, hsecond⟩ := Bool.and_eq_true_iff.mp h
    have hbelow := hlt hlowest hcount (of_decide_eq_true hfirst)
    have habove := hlt hcount hhighest (of_decide_eq_true hsecond)
    exact ⟨hbelow.le, habove.le, fun _ => ⟨hbelow, habove⟩⟩

theorem roundsFrom_of_nearestOn {tie : Tie} {grid : Int} {count : Nat}
    (h : x.nearestOn tie grid = some count) : x.roundsFrom count grid = true := by
  unfold nearestOn at h
  dsimp only at h
  split at h
  · rename_i hbelow habove
    -- both neighbours round back: the nearer one is taken, and the tie decides in the middle
    split at h <;> obtain rfl := Option.some.inj h
    · exact hbelow
    · exact habove
    · exact habove
    · split
      · exact hbelow
      · exact habove
  · rename_i hbelow _
    obtain rfl := Option.some.inj h
    exact hbelow
  · rename_i _ habove
    obtain rfl := Option.some.inj h
    exact habove
  · cases h

/-- **The shortest decimal rounds to the magnitude.** -/
theorem exists_shortest (hpos : 0 < x.significand) (tie : Tie) :
    ∃ (count : Nat) (grid : Int), x.shortest tie = .ofCount count grid ∧ x.Covers (count * 10 ^ grid) := by
  unfold shortest
  dsimp only
  cases hfound : (List.range 17).findSome? fun (places : Nat) =>
      (x.nearestOn tie (x.wholeDigits - 1 - places)).map (Digits.ofCount · (x.wholeDigits - 1 - places)) with
  | some d =>
      obtain ⟨places, -, hplaces⟩ := List.exists_of_findSome?_eq_some hfound
      obtain ⟨count, hcount, rfl⟩ := Option.map_eq_some_iff.mp hplaces
      exact ⟨count, _, rfl, covers_of_roundsFrom hpos (roundsFrom_of_nearestOn hcount)⟩
  | none =>
      -- Whether seventeen digits suffice does not matter, since all digits do.
      rw [Option.getD_none, exactDigits]
      split
      · rename_i hsign
        have hvalue : ((x.significand <<< x.exponent.toNat : Nat) : ℚ) * 10 ^ (0 : Int) =
            x.significand * 2 ^ x.exponent := by
          rw [Nat.shiftLeft_eq, zpow_zero, mul_one]
          push_cast
          rw [← zpow_natCast, Int.toNat_of_nonneg hsign]
        exact ⟨_, 0, rfl, hvalue ▸ x.covers_self⟩
      · rename_i hsign
        have hvalue : ((x.significand * Nat.pow 5 (-x.exponent).toNat : Nat) : ℚ) * 10 ^ x.exponent =
            x.significand * 2 ^ x.exponent := by
          have hten : (10 : ℚ) ^ x.exponent = 2 ^ x.exponent * 5 ^ x.exponent := by
            rw [← mul_zpow]
            norm_num
          have hfive : (5 : ℚ) ^ (-x.exponent).toNat * 5 ^ x.exponent = 1 := by
            rw [← zpow_natCast, Int.toNat_of_nonneg (by omega), ← zpow_add₀ (by norm_num)]
            simp
          rw [Nat.pow_eq, hten]
          push_cast
          linear_combination (x.significand : ℚ) * 2 ^ x.exponent * hfive
        exact ⟨_, _, rfl, hvalue ▸ x.covers_self⟩

end Magnitude

/-! ## Digits and their layout -/

/-- Digits as they are written: there are some, and nothing else. -/
structure Digits.IsWritten (d : Digits) : Prop where
  nonempty : d.digits ≠ []
  all : ∀ c ∈ d.digits, c.isDigit = true

theorem natOfDigits_append (first second : List Char) :
    natOfDigits (first ++ second) = 10 ^ second.length * natOfDigits first + natOfDigits second :=
  (Nat.ofDigitChars_append 0).trans Nat.ofDigitChars_eq_ofDigitChars_zero

theorem natOfDigits_replicate_zero (n : Nat) : natOfDigits (List.replicate n '0') = 0 :=
  Nat.ofDigitChars_replicate_zero.trans (Nat.mul_zero _)

/-- Without its trailing zeros, a count has the same value. -/
theorem Digits.exists_ofCount {count : Nat} (hpos : 0 < count) (grid : Int) :
    (Digits.ofCount count grid).IsWritten ∧ 0 < natOfDigits (Digits.ofCount count grid).digits ∧
      (natOfDigits (Digits.ofCount count grid).digits : ℚ) *
        10 ^ ((Digits.ofCount count grid).point - (Digits.ofCount count grid).digits.length) =
          count * 10 ^ grid := by
  obtain ⟨digits, zeros, hsplit, hdigits⟩ : ∃ digits zeros,
      Nat.toDigits 10 count = digits ++ List.replicate zeros '0' ∧
        Digits.ofCount count grid = ⟨digits, (Nat.toDigits 10 count).length + grid⟩ := by
    refine ⟨_, ((Nat.toDigits 10 count).rtakeWhile (· == '0')).length, ?_, rfl⟩
    have hzeros : (Nat.toDigits 10 count).rtakeWhile (· == '0') =
        List.replicate ((Nat.toDigits 10 count).rtakeWhile (· == '0')).length '0' :=
      List.eq_replicate_of_mem fun c hc => by simpa using List.mem_rtakeWhile_imp hc
    rw [← hzeros, List.rtakeWhile, ← List.reverse_append, List.takeWhile_append_dropWhile, List.reverse_reverse]
  have hcount : count = 10 ^ zeros * natOfDigits digits := by
    have hvalue := Json.natOfDigits_toDigits count
    rw [hsplit, natOfDigits_append, natOfDigits_replicate_zero, List.length_replicate] at hvalue
    exact hvalue.symm
  have hpositive : 0 < natOfDigits digits := Nat.pos_of_ne_zero fun hzero => by
    rw [hzero] at hcount
    omega
  have hall : ∀ c ∈ digits, c.isDigit = true := fun c hc =>
    Json.isDigit_of_mem (hsplit ▸ List.mem_append_left _ hc)
  have hnonempty : digits ≠ [] := by
    rintro rfl
    exact absurd hpositive (by decide)
  rw [hdigits]
  refine ⟨⟨hnonempty, hall⟩, hpositive, ?_⟩
  have hexponent : ((Nat.toDigits 10 count).length : Int) + grid - digits.length = zeros + grid := by
    rw [hsplit, List.length_append, List.length_replicate]
    omega
  show (natOfDigits digits : ℚ) * 10 ^ (((Nat.toDigits 10 count).length : Int) + grid - digits.length) = _
  rw [hexponent, zpow_add₀ (by norm_num), zpow_natCast, hcount]
  push_cast
  ring

/-- How digits are laid out: as a whole number, or with a point among the digits. -/
theorem layPlain_cases {d : Digits} (h : d.IsWritten) :
    (plain.layPlain d ≠ [] ∧ ∀ c ∈ plain.layPlain d, c.isDigit = true) ∨
      ∃ whole fraction, Pointed (plain.layPlain d) whole fraction ∧
        natOfDigits (whole ++ fraction) = natOfDigits d.digits ∧
        (fraction.length : Int) = d.digits.length - d.point := by
  have hzeros : ∀ n, ∀ c ∈ List.replicate n '0', c.isDigit = true := fun n c hc => by
    rw [List.eq_of_mem_replicate hc]
    decide
  -- The point stands before the digits, behind them, or between two of them.
  unfold Style.layPlain
  split
  · rename_i hpoint
    refine .inr ⟨['0'], List.replicate (-d.point).toNat '0' ++ d.digits,
      ⟨rfl, by simp, by simp [h.nonempty], ?_⟩, ?_, ?_⟩
    · intro c hc
      rw [List.mem_append, List.mem_append] at hc
      rcases hc with hzero | hzero | hdigit
      · exact hzeros 1 c hzero
      · exact hzeros _ c hzero
      · exact h.all c hdigit
    · have hfilled : ['0'] ++ (List.replicate (-d.point).toNat '0' ++ d.digits) =
          List.replicate ((-d.point).toNat + 1) '0' ++ d.digits := rfl
      rw [hfilled, natOfDigits_append, natOfDigits_replicate_zero, Nat.mul_zero, Nat.zero_add]
    · rw [List.length_append, List.length_replicate]
      omega
  · rename_i hpositive
    split
    · refine .inl ⟨by simp [h.nonempty], fun c hc => ?_⟩
      rw [if_neg (show ¬(plain.wholePoint = true) by decide), List.append_nil, List.mem_append] at hc
      exact hc.elim (h.all c) (hzeros _ c)
    · rename_i hlong
      refine .inr ⟨d.digits.take d.point.toNat, d.digits.drop d.point.toNat,
        ⟨by simp, ?_, ?_, ?_⟩, ?_, ?_⟩
      · simp [h.nonempty]
        omega
      · simp
        omega
      · rw [List.take_append_drop]
        exact h.all
      · rw [List.take_append_drop]
      · rw [List.length_drop]
        omega

/-! ## Floats -/

/-- The magnitude of a finite float is written as a whole number, or with a point that its decimal is
read with again. -/
theorem layMagnitude_cases {bits : UInt64} (hfinite : exponentField bits ≠ -1#11) :
    (plain.layMagnitude (.ofBits bits) ≠ [] ∧
        ∀ c ∈ plain.layMagnitude (.ofBits bits), c.isDigit = true) ∨
      (∃ whole fraction, Pointed (plain.layMagnitude (.ofBits bits)) whole fraction) ∧
        ∃ hpos, readMagnitude? (plain.layMagnitude (.ofBits bits)) =
          some ((Magnitude.ofBits bits).toFloat .positive hpos) := by
  -- zero is written as the single digit
  by_cases hne : (Magnitude.ofBits bits).significand = 0
  · rw [Style.layMagnitude, if_pos hne]
    exact .inl ⟨List.cons_ne_nil _ _, List.all_eq_true.mp rfl⟩
  · obtain ⟨hcanonical, hhigh⟩ := isCanonical_ofBits hfinite hne
    obtain ⟨count, grid, hshortest, hcovers⟩ := Magnitude.exists_shortest hcanonical.positive plain.tie
    have hcount : 0 < count := Nat.pos_of_ne_zero fun hzero => by
      have hpositive := hcovers.pos hcanonical
      simp [hzero] at hpositive
    obtain ⟨hwritten, hdigits, hvalue⟩ := Digits.exists_ofCount hcount grid
    have hplain : plain.layMagnitude (.ofBits bits) = plain.layPlain (.ofCount count grid) := by
      rw [Style.layMagnitude, if_neg hne, hshortest]
      rfl
    rw [hplain]
    rcases layPlain_cases hwritten with hwhole | ⟨whole, fraction, hlaid, hnat, hlength⟩
    · exact .inl hwhole
    · refine .inr ⟨⟨whole, fraction, hlaid⟩, hcanonical.positive, ?_⟩
      have hplaces : 0 < fraction.length := List.length_pos_of_ne_nil hlaid.fraction_ne_nil
      -- the digits read as a fraction are the decimal that covers the float
      have hdecimal : (count : ℚ) * 10 ^ grid = natOfDigits (whole ++ fraction) / 10 ^ fraction.length := by
        rw [← hvalue, hnat, div_eq_mul_inv, ← zpow_natCast, ← zpow_neg, hlength]
        congr 2
        omega
      rw [hdecimal] at hcovers
      rw [hlaid.readMagnitude?, scaled_eq hcanonical (hnat ▸ hdigits) hcovers hhigh hplaces]

theorem toList_render {x : Float} (hnumber : x.isNaN = false) (hfinite : x.isInf = false) :
    (plain.render x).toList = (if x.toBits >>> 63 = 1 then ['-'] else []) ++
      plain.layMagnitude (.ofBits x.toBits) := by
  rw [Style.render, hnumber, hfinite]
  simp only [Bool.false_eq_true, if_false, String.toList_append, String.toList_ofList]
  split <;> rfl

/-- The words for what is not finite have no point. -/
theorem render_cases (x : Float) :
    plain.render x = "NaN" ∨ plain.render x = "inf" ∨ plain.render x = "-inf" ∨
      (x.isNaN = false ∧ x.isInf = false) := by
  unfold Style.render
  split
  · exact .inl rfl
  · rename_i hnumber
    split
    · rename_i hinf
      dsimp only
      split
      · exact .inr (.inr (.inl (by decide)))
      · exact .inr (.inl (by decide))
    · rename_i hfinite
      exact .inr (.inr (.inr ⟨by simpa using hnumber, by simpa using hfinite⟩))

theorem finite_of_point {x : Float} (hpoint : '.' ∈ (plain.render x).toList) :
    x.isNaN = false ∧ x.isInf = false := by
  rcases render_cases x with hword | hword | hword | hfinite
  · exact absurd hpoint (hword ▸ by decide)
  · exact absurd hpoint (hword ▸ by decide)
  · exact absurd hpoint (hword ▸ by decide)
  · exact hfinite

/-- **A float that is written with a point is read again.** -/
theorem read?_render {x : Float} (hpoint : '.' ∈ (plain.render x).toList) :
    read? (plain.render x).toList = some x := by
  obtain ⟨hnumber, hinf⟩ := finite_of_point hpoint
  have hfinite := exponentField_ne hnumber hinf
  rw [toList_render hnumber hinf] at hpoint ⊢
  rcases layMagnitude_cases hfinite with ⟨-, hall⟩ | ⟨⟨whole, fraction, hlaid⟩, hpos, hread⟩
  · -- a sign has no point, so the point is in the magnitude
    have hmem : '.' ∈ plain.layMagnitude (.ofBits x.toBits) := by
      rcases List.mem_append.mp hpoint with hsign | hmem
      · split at hsign <;> simp at hsign
      · exact hmem
    exact absurd (hall _ hmem) (by decide)
  · obtain ⟨c, rest, hstarts, hc⟩ := hlaid.exists_head
    have hfloat := toFloat_ofBits hfinite hpos
    rw [hstarts, ← readUnsigned?_of_isDigit hc] at hread
    rw [hstarts]
    rw [signOf_eq] at hfloat
    split
    · rename_i hsign
      obtain ⟨hcanonical, hhigh⟩ := isCanonical_ofBits hfinite hpos.ne'
      rw [if_pos hsign, ← neg_toFloat hcanonical hhigh] at hfloat
      show (readUnsigned? (c :: rest)).map (fun y => -y) = some x
      rw [hread, Option.map_some, hfloat]
    · rename_i hsign
      rw [if_neg hsign] at hfloat
      rw [hfloat] at hread
      exact (read?_of_isDigit hc rest).trans hread

end ProgramGraph.Decimal
