import ProgramGraph.Decimal.Reader
import ProgramGraph.Proofs.Decimal.Bits

set_option autoImplicit false

/-! # Decimals with a point are read

The digits in front of a point and behind it are read as a whole number over a power of ten. Where
both are small enough to be floats themselves, the reader divides the floats, otherwise it divides
exactly and rounds once; either way it arrives at the float whose magnitude covers the quotient. The
bounds behind which the reader gives up lie outside of what any float covers.
-/

namespace ProgramGraph.Decimal

open Float.Model Float.Model.UnpackedFloat

/-! ## Powers of ten -/

/-- The number is a power of ten. -/
def isPowerOfTen (power : Nat) : UnpackedFloat → Bool
  | .finite .positive mantissa exponent _ =>
      mantissa * 2 ^ exponent.toNat == 10 ^ power * 2 ^ (-exponent).toNat
  | _ => false

/-- The first powers of ten are floats. -/
theorem isPowerOfTen_table : ∀ power, ∀ _ : power < Float.exactlyRepresentablePowersOfTen.size,
    isPowerOfTen power Float.exactlyRepresentablePowersOfTen[power].toModel.unpack = true := by
  decide +kernel

theorem exists_of_isPowerOfTen {power : Nat} {u : UnpackedFloat} (h : isPowerOfTen power u = true) :
    ∃ mantissa exponent, ∃ hpos : 0 < mantissa, u = .finite .positive mantissa exponent hpos ∧
      (mantissa : ℚ) * 2 ^ exponent = 10 ^ power := by
  unfold isPowerOfTen at h
  split at h
  · rename_i mantissa exponent hpos
    refine ⟨mantissa, exponent, hpos, rfl, ?_⟩
    have hscaled : (mantissa : ℚ) * 2 ^ exponent.toNat = 10 ^ power * 2 ^ (-exponent).toNat := by
      exact_mod_cast beq_iff_eq.mp h
    rcases Int.le_total 0 exponent with hsign | hsign
    · obtain ⟨e, rfl⟩ := Int.eq_ofNat_of_zero_le hsign
      simpa using hscaled
    · obtain ⟨e, he⟩ := Int.eq_ofNat_of_zero_le (Int.neg_nonneg.mpr hsign)
      obtain rfl : exponent = -(e : Int) := by omega
      simp only [Int.neg_neg, Int.toNat_natCast, Int.toNat_neg_natCast, pow_zero, mul_one] at hscaled
      rw [hscaled, zpow_neg, zpow_natCast]
      field_simp
  · cases h

/-! ## The range of floats -/

/-- What rounds to a magnitude is not too small. -/
theorem Magnitude.Covers.two_zpow_le {x : Magnitude} {v : ℚ} (hv : x.Covers v) (hx : x.IsCanonical) :
    (2 : ℚ) ^ (-1075 : Int) ≤ v := by
  have hone : (1 : ℚ) ≤ x.significand := Nat.one_le_cast.mpr hx.positive
  have hhalf : (1 : ℚ) / 2 ≤ x.significand - x.gapBelow := by linarith [x.gapBelow_le]
  calc (2 : ℚ) ^ (-1075 : Int) = 1 / 2 * 2 ^ (-1074 : Int) := by
        rw [show (-1075 : Int) = -1 + -1074 by decide, two_zpow_add]
        norm_num
    _ ≤ (x.significand - x.gapBelow) * 2 ^ x.exponent :=
        mul_le_mul hhalf (zpow_le_zpow_right₀ one_le_two hx.least) (by positivity) (by linarith)
    _ ≤ v := hv.low

/-- What rounds to the magnitude of a float is not too large. -/
theorem Magnitude.Covers.lt_two_zpow {x : Magnitude} {v : ℚ} (hv : x.Covers v) (hx : x.IsCanonical)
    (hhigh : x.exponent ≤ 971) : v < (2 : ℚ) ^ (1024 : Int) := by
  have hfits : (x.significand : ℚ) + 1 ≤ 2 ^ 53 := by exact_mod_cast hx.fits
  have hplace : (0 : ℚ) < 2 ^ x.exponent := by positivity
  calc v ≤ (x.significand + 1 / 2) * 2 ^ x.exponent := hv.high
    _ < 2 ^ 53 * 2 ^ x.exponent := mul_lt_mul_of_pos_right (by linarith) hplace
    _ ≤ 2 ^ 53 * 2 ^ (971 : Int) :=
        mul_le_mul_of_nonneg_left (zpow_le_zpow_right₀ one_le_two hhigh) (by positivity)
    _ = 2 ^ (1024 : Int) := by
        rw [← zpow_natCast, ← two_zpow_add]
        rfl

/-! ## Quotients by powers of ten -/

section Scaled

variable {x : Magnitude} (hx : x.IsCanonical) {n places : Nat} (hpos : 0 < n)
  (hv : x.Covers (n / 10 ^ places))

include hx hv

theorem places_lt : places < (Nat.toDigits 10 n).length + 330 := by
  have hbound : (10 : ℚ) ^ places ≤ n * 2 ^ 1075 := by
    have hlow := hv.two_zpow_le hx
    rw [zpow_neg, le_div_iff₀ (by positivity), inv_mul_le_iff₀ (by positivity)] at hlow
    rw [mul_comm]
    exact_mod_cast hlow
  have hdigits : n < 10 ^ (Nat.toDigits 10 n).length :=
    (Nat.length_toDigits_le_iff (by decide) Nat.length_toDigits_pos).mp (Nat.le_refl _)
  have hlt : 10 ^ places < 10 ^ ((Nat.toDigits 10 n).length + 330) :=
    calc 10 ^ places ≤ n * 2 ^ 1075 := by exact_mod_cast hbound
      _ < 10 ^ (Nat.toDigits 10 n).length * 2 ^ 1075 := Nat.mul_lt_mul_of_pos_right hdigits (by positivity)
      _ ≤ 10 ^ (Nat.toDigits 10 n).length * 10 ^ 330 := Nat.mul_le_mul_left _ (by decide +kernel)
      _ = 10 ^ ((Nat.toDigits 10 n).length + 330) := (pow_add _ _ _).symm
  exact (Nat.pow_lt_pow_iff_right (by decide)).mp hlt

theorem length_le (hhigh : x.exponent ≤ 971) : (Nat.toDigits 10 n).length ≤ 309 + places := by
  rw [Nat.length_toDigits_le_iff (by decide) (by omega), pow_add]
  have hbound : (n : ℚ) < 2 ^ 1024 * 10 ^ places := by
    have hlt := hv.lt_two_zpow hx hhigh
    rw [div_lt_iff₀ (by positivity)] at hlt
    exact_mod_cast hlt
  calc n < 2 ^ 1024 * 10 ^ places := by exact_mod_cast hbound
    _ ≤ 10 ^ 309 * 10 ^ places := Nat.mul_le_mul_right _ (by decide +kernel)

include hpos

theorem ofScientific_eq (hplaces : 0 < places) (hsmall : places ≤ 2048 + n.log2) :
    Float.ofScientific n true places = x.toFloat .positive hx.positive := by
  rw [Float.ofScientific]
  split
  · -- The digits and the power of ten are floats themselves, so nothing is rounded but the quotient.
    rename_i hfast
    have hcanonical := isCanonical_wholeMagnitude hpos hfast.1
    have hwhole : n.toUInt64.toFloat.toModel.unpack =
        .finite .positive (wholeMagnitude n).significand (wholeMagnitude n).exponent hcanonical.positive := by
      have hhigh : (wholeMagnitude n).exponent ≤ 971 := by
        show -((52 - n.log2 : Nat) : Int) ≤ 971
        omega
      have hn : n.toUInt64.toNat = n := UInt64.toNat_ofNat_of_lt (hfast.1.trans (by decide))
      show (Float.Model.pack (UnpackedFloat.ofNat .binary64 n.toUInt64.toNat)).unpack = _
      rw [hn, ofNat_eq hpos hfast.1]
      exact unpack_pack hcanonical hhigh .positive
    have hsize : places < Float.exactlyRepresentablePowersOfTen.size := Nat.lt_succ_of_le hfast.2
    obtain ⟨mantissa, exponent, hmantissa, hpower, hvalue⟩ :=
      exists_of_isPowerOfTen (isPowerOfTen_table places hsize)
    have hquotient := div_eq hx hcanonical.positive hmantissa (by rwa [value_wholeMagnitude, hvalue])
    show Float.ofModel (.pack (UnpackedFloat.div .binary64 _ _)) = _
    rw [hwhole, hpower, hquotient]
    rfl
  · -- The power of ten is exact, however large it is.
    have hten : 0 < 10 ^ places := by positivity
    have hquotient := @div_eq x hx n (10 ^ places) 0 0 hpos hten (by simpa using hv)
    have hexponent : Int.negOfNat places = -(places : Int) := Int.negOfNat_eq
    have hunpacked : UnpackedFloat.ofScientific .binary64 n (Int.negOfNat places) =
        .finite .positive x.significand x.exponent hx.positive := by
      rw [UnpackedFloat.ofScientific, dif_neg hpos.ne', hexponent, if_neg, if_neg, if_neg (by omega)]
      · simpa using hquotient
      · show ¬(-(places : Int) < -((2 ^ 11 : Int) + n.log2))
        omega
      · show ¬(-(places : Int) > 2 ^ 11)
        omega
    show Float.ofModel (.pack (UnpackedFloat.ofScientific .binary64 n (Int.negOfNat places))) = _
    rw [hunpacked]
    rfl

/-- **A decimal is read as the float whose magnitude covers it.** -/
theorem scaled_eq (hhigh : x.exponent ≤ 971) (hplaces : 0 < places) :
    scaled n (-(places : Int)) = x.toFloat .positive hx.positive := by
  have hlow := places_lt hx hv
  have hlength := length_le hx hv hhigh
  have hlog : (Nat.toDigits 10 n).length ≤ n.log2 + 1 := by
    rw [Nat.length_toDigits_le_iff (by decide) (by omega)]
    exact Nat.lt_log2_self.trans_le (Nat.pow_le_pow_left (by decide) _)
  rw [scaled, if_neg (by simp; omega), if_neg (by omega)]
  have hnegative : decide (-(places : Int) < 0) = true := decide_eq_true (by omega)
  rw [hnegative, Int.natAbs_neg, Int.natAbs_natCast]
  exact ofScientific_eq hx hpos hv hplaces (by omega)

end Scaled

/-! ## The text -/

/-- What starts with a digit is no word for infinity or for no number. -/
theorem readUnsigned?_of_isDigit {c : Char} (hc : c.isDigit = true) (rest : List Char) :
    readUnsigned? (c :: rest) = readMagnitude? (c :: rest) := by
  have hword : ∀ (word : String) {d : Char} {more : List Char}, word.toList = d :: more →
      d.isDigit = false → String.ofList ((c :: rest).map Char.toLower) ≠ word := by
    rintro word d more hchars hd rfl
    have hlower : c.toLower = c := by
      obtain ⟨-, hnine⟩ := Bool.and_eq_true_iff.mp hc
      refine dif_neg fun hupper => ?_
      have hle : ('A').val ≤ ('9').val := UInt32.le_trans hupper.1 (of_decide_eq_true hnine)
      exact absurd hle (by decide)
    rw [String.toList_ofList, List.map_cons, hlower] at hchars
    rw [← (List.cons.inj hchars).1, hc] at hd
    cases hd
  rw [readUnsigned?]
  have hinf := decide_eq_false (hword "inf" rfl rfl)
  have hinfinity := decide_eq_false (hword "infinity" rfl rfl)
  simp only [hinf, hinfinity, hword "nan" rfl rfl, Bool.or_self, Bool.false_eq_true, if_false]

/-- What starts with a digit has no sign. -/
theorem read?_of_isDigit {c : Char} (hc : c.isDigit = true) (rest : List Char) :
    read? (c :: rest) = readUnsigned? (c :: rest) := by
  unfold read?
  split
  · rename_i heq
    obtain ⟨rfl, -⟩ := List.cons.inj heq
    exact absurd hc (by decide)
  · rename_i heq
    obtain ⟨rfl, -⟩ := List.cons.inj heq
    exact absurd hc (by decide)
  · rfl

/-- Digits in front of a point and digits behind it. -/
structure Pointed (text whole fraction : List Char) : Prop where
  parts : text = whole ++ '.' :: fraction
  whole_ne_nil : whole ≠ []
  fraction_ne_nil : fraction ≠ []
  digits : ∀ c ∈ whole ++ fraction, c.isDigit = true

theorem Pointed.exists_head {text whole fraction : List Char} (h : Pointed text whole fraction) :
    ∃ c rest, text = c :: rest ∧ c.isDigit = true := by
  obtain ⟨c, more, rfl⟩ := List.exists_cons_of_ne_nil h.whole_ne_nil
  exact ⟨c, more ++ '.' :: fraction, h.parts, h.digits c (by simp)⟩

theorem Pointed.readMagnitude? {text whole fraction : List Char} (h : Pointed text whole fraction) :
    readMagnitude? text = some (scaled (natOfDigits (whole ++ fraction)) (-(fraction.length : Int))) := by
  have hfirst : ∀ c ∈ whole, c.isDigit = true := fun c hc => h.digits c (List.mem_append_left _ hc)
  have hsecond : ∀ c ∈ fraction, c.isDigit = true := fun c hc => h.digits c (List.mem_append_right _ hc)
  have htake : (whole ++ '.' :: fraction).takeWhile Char.isDigit = whole := by
    rw [List.takeWhile_append_of_pos hfirst, List.takeWhile_cons_of_neg (by decide), List.append_nil]
  have hdrop : (whole ++ '.' :: fraction).dropWhile Char.isDigit = '.' :: fraction := by
    rw [List.dropWhile_append_of_pos hfirst, List.dropWhile_cons_of_neg (by decide)]
  have htakeAll : fraction.takeWhile Char.isDigit = fraction := List.takeWhile_eq_self_iff.mpr hsecond
  have hdropAll : fraction.dropWhile Char.isDigit = [] := List.dropWhile_eq_nil_iff.mpr hsecond
  have hempty : whole.isEmpty = false := by simpa using h.whole_ne_nil
  rw [h.parts, Decimal.readMagnitude?, htake, hdrop]
  simp only [htakeAll, hdropAll, hempty, Bool.false_and, Bool.false_eq_true, if_false]

end ProgramGraph.Decimal
