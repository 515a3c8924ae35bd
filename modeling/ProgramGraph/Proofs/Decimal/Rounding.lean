import Mathlib
import ProgramGraph.Decimal.Magnitude

set_option autoImplicit false

/-! # Rounding to the nearest binary number

A mantissa with a round bit and a sticky bit says where an exact number lies between two
neighbours: on the lower one, or below, at or above the middle. Shifting keeps what it says, and so
does a division that keeps its remainder. Whoever rounds therefore arrives at the magnitude whose
rounding interval holds the exact number, also where the interval reaches below a power of two and
the mantissa is carried over.
-/

namespace ProgramGraph.Decimal

open Float.Model Float.Model.UnpackedFloat

/-! ## Where a number lies -/

/-- The number lies where the round bit and the sticky bit behind the mantissa say. -/
def Locates (em : ExtendedMantissa) (x : ℚ) : Prop :=
  match em.roundBit, em.stickyBit with
  | false, false => x = em.mantissa
  | false, true => em.mantissa < x ∧ x < em.mantissa + 1 / 2
  | true, false => x = em.mantissa + 1 / 2
  | true, true => em.mantissa + 1 / 2 < x ∧ x < em.mantissa + 1

theorem Locates.bounds {em : ExtendedMantissa} {x : ℚ} (h : Locates em x) :
    em.mantissa ≤ x ∧ x < em.mantissa + 1 := by
  obtain ⟨mantissa, roundBit, stickyBit⟩ := em
  cases roundBit <;> cases stickyBit <;> simp only [Locates] at h <;> constructor <;> linarith

theorem locates_shiftRightOne {em : ExtendedMantissa} {x : ℚ} (h : Locates em x) :
    Locates em.shiftRightOne (x / 2) := by
  obtain ⟨mantissa, roundBit, stickyBit⟩ := em
  have hsplit : (mantissa : ℚ) = 2 * ((mantissa / 2 : Nat) : ℚ) + ((mantissa % 2 : Nat) : ℚ) := by
    exact_mod_cast (Nat.div_add_mod mantissa 2).symm
  -- The last bit of the mantissa becomes the round bit.
  rcases Nat.mod_two_eq_zero_or_one mantissa with hlast | hlast <;> rw [hlast] at hsplit <;>
    cases roundBit <;> cases stickyBit <;>
    simp only [Locates, ExtendedMantissa.shiftRightOne, hlast, bne_self_eq_false, Bool.or_false,
      Bool.or_true, Nat.cast_zero, Nat.cast_one, (by decide : ((1 : Nat) != 0) = true)] at h hsplit ⊢ <;>
    first
      | linarith
      | exact ⟨by linarith, by linarith⟩

/-- **A shift keeps where a number lies.** -/
theorem locates_shiftRight {em : ExtendedMantissa} {x : ℚ} (h : Locates em x) (places : Nat) :
    Locates (em >>> places) (x / 2 ^ places) := by
  induction places with
  | zero => simpa [HShiftRight.hShiftRight, Nat.repeat] using h
  | succ places ih =>
      rw [pow_succ, ← div_div]
      exact locates_shiftRightOne ih

/-- A division that keeps its remainder says where the quotient lies. -/
theorem locates_quotient (num : Nat) {den : Nat} (hden : 0 < den) :
    Locates (.ofMantissaAndAccuracy (num / den) (accuracyOfFraction (num % den) den))
      ((num : ℚ) / den) := by
  have hpos : (0 : ℚ) < den := Nat.cast_pos.mpr hden
  have hsplit : (num : ℚ) / den = ((num / den : Nat) : ℚ) + ((num % den : Nat) : ℚ) / den := by
    have hnum : (num : ℚ) = den * ((num / den : Nat) : ℚ) + ((num % den : Nat) : ℚ) := by
      exact_mod_cast (Nat.div_add_mod num den).symm
    rw [hnum]
    field_simp
  have hbelow : ((num % den : Nat) : ℚ) / den < 1 :=
    (div_lt_one hpos).mpr (Nat.cast_lt.mpr (Nat.mod_lt num hden))
  rw [hsplit]
  generalize num / den = quotient
  generalize num % den = rest at hbelow ⊢
  unfold accuracyOfFraction
  split
  · rename_i hzero
    simp [hzero, Locates, ExtendedMantissa.ofMantissaAndAccuracy]
  · rename_i hrest
    have hrest : (0 : ℚ) < rest := Nat.cast_pos.mpr (Nat.pos_of_ne_zero hrest)
    -- Twice the remainder is compared with the divisor, which tells on which side of the half the rest lies.
    cases hcompare : compare (2 * rest) den with
    | lt =>
        have hlt := Nat.cast_lt (α := ℚ) |>.mpr (Nat.compare_eq_lt.mp hcompare)
        push_cast at hlt
        have hquotient : (rest : ℚ) / den < 1 / 2 := by rw [div_lt_iff₀ hpos]; linarith
        simp only [Locates, ExtendedMantissa.ofMantissaAndAccuracy]
        exact ⟨by linarith [div_pos hrest hpos], by linarith⟩
    | eq =>
        have heq : ((2 * rest : Nat) : ℚ) = den := by rw [Nat.compare_eq_eq.mp hcompare]
        push_cast at heq
        have hquotient : (rest : ℚ) / den = 1 / 2 := by rw [div_eq_iff hpos.ne']; linarith
        simp [Locates, ExtendedMantissa.ofMantissaAndAccuracy, hquotient]
    | gt =>
        have hlt := Nat.cast_lt (α := ℚ) |>.mpr (Nat.compare_eq_gt.mp hcompare)
        push_cast at hlt
        have hquotient : 1 / 2 < (rest : ℚ) / den := by rw [lt_div_iff₀ hpos]; linarith
        simp only [Locates, ExtendedMantissa.ofMantissaAndAccuracy]
        exact ⟨by linarith, by linarith⟩

/-- **Rounding takes the integer that is nearest**, and the even one from the middle. -/
theorem Locates.roundedMantissa_eq {em : ExtendedMantissa} {x : ℚ} (h : Locates em x) {n : Nat}
    (hlow : (n : ℚ) - 1 / 2 ≤ x) (hhigh : x ≤ n + 1 / 2)
    (hodd : n % 2 = 1 → (n : ℚ) - 1 / 2 < x ∧ x < n + 1 / 2) : em.roundedMantissa = n := by
  obtain ⟨mantissa, roundBit, stickyBit⟩ := em
  have hcast : ∀ {a b : Nat}, (a : ℚ) < b + 1 → a ≤ b := by
    intro a b hlt
    exact Nat.lt_succ_iff.mp (by exact_mod_cast hlt)
  cases roundBit <;> cases stickyBit <;>
    simp only [Locates, ExtendedMantissa.roundedMantissa, ExtendedMantissa.accuracy,
      Accuracy.roundToNearestEven] at h ⊢
  · exact Nat.le_antisymm (hcast (by linarith)) (hcast (by linarith))
  · exact Nat.le_antisymm (hcast (by linarith)) (hcast (by linarith))
  · -- In the middle, only the even neighbour is left.
    have hneighbours : mantissa = n ∨ mantissa + 1 = n := by
      have hupper : mantissa ≤ n := hcast (by linarith)
      have hlower : n ≤ mantissa + 1 := hcast (by push_cast; linarith)
      omega
    have heven : n % 2 = 0 := by
      by_contra hne
      obtain ⟨hfirst, hsecond⟩ := hodd (by omega)
      rcases hneighbours with rfl | rfl
      · linarith
      · push_cast at hfirst
        linarith
    omega
  · exact Nat.le_antisymm (hcast (by push_cast; linarith)) (hcast (by push_cast; linarith))

/-! ## Magnitudes and what rounds to them -/

namespace Magnitude

/-- The magnitude has the significand and the exponent that a finite float other than zero has. -/
structure IsCanonical (x : Magnitude) : Prop where
  positive : 0 < x.significand
  fits : x.significand < 2 ^ 53
  least : -1074 ≤ x.exponent
  full : x.exponent ≠ -1074 → 2 ^ 52 ≤ x.significand
  narrow : x.exponent ≠ -1074 → x.significand = 2 ^ 52 → x.narrowBelow = true

/-- The distance to the lower end of the rounding interval, in last places. -/
def gapBelow (x : Magnitude) : ℚ := if x.narrowBelow then 1 / 4 else 1 / 2

/-- The number lies among those that round to the magnitude. -/
structure Covers (x : Magnitude) (v : ℚ) : Prop where
  low : (x.significand - x.gapBelow) * 2 ^ x.exponent ≤ v
  high : v ≤ (x.significand + 1 / 2) * 2 ^ x.exponent
  inside : x.significand % 2 = 1 →
    (x.significand - x.gapBelow) * 2 ^ x.exponent < v ∧ v < (x.significand + 1 / 2) * 2 ^ x.exponent

theorem gapBelow_pos (x : Magnitude) : 0 < x.gapBelow := by
  unfold gapBelow
  split <;> norm_num

theorem gapBelow_le (x : Magnitude) : x.gapBelow ≤ 1 / 2 := by
  unfold gapBelow
  split <;> norm_num

theorem covers_self (x : Magnitude) : x.Covers (x.significand * 2 ^ x.exponent) := by
  have hplace : (0 : ℚ) < 2 ^ x.exponent := by positivity
  have hbelow := mul_lt_mul_of_pos_right (sub_lt_self (x.significand : ℚ) x.gapBelow_pos) hplace
  have habove := mul_lt_mul_of_pos_right (lt_add_of_pos_right (x.significand : ℚ) one_half_pos) hplace
  exact ⟨hbelow.le, habove.le, fun _ => ⟨hbelow, habove⟩⟩

/-- The number in last places. -/
theorem Covers.places {x : Magnitude} {v : ℚ} (h : x.Covers v) :
    (x.significand : ℚ) - x.gapBelow ≤ v / 2 ^ x.exponent ∧ v / 2 ^ x.exponent ≤ x.significand + 1 / 2 ∧
      (x.significand % 2 = 1 → (x.significand : ℚ) - x.gapBelow < v / 2 ^ x.exponent ∧
        v / 2 ^ x.exponent < x.significand + 1 / 2) := by
  have hplace : (0 : ℚ) < 2 ^ x.exponent := by positivity
  simp only [le_div_iff₀ hplace, div_le_iff₀ hplace, lt_div_iff₀ hplace, div_lt_iff₀ hplace]
  exact ⟨h.low, h.high, h.inside⟩

theorem Covers.pos {x : Magnitude} {v : ℚ} (h : x.Covers v) (hx : x.IsCanonical) : 0 < v := by
  have hone : (1 : ℚ) ≤ x.significand := Nat.one_le_cast.mpr hx.positive
  have hplace : (0 : ℚ) < 2 ^ x.exponent := by positivity
  have hlow : 0 < ((x.significand : ℚ) - x.gapBelow) * 2 ^ x.exponent :=
    mul_pos (by linarith [x.gapBelow_le]) hplace
  exact hlow.trans_le h.low

end Magnitude

/-! ## The exponent to round to -/

theorem targetExponent_binary64 (total : Int) :
    Format.binary64.targetExponent total = max (total - 53) (-1074) := by
  simp [Format.targetExponent, Format.mantissaBits, Format.minExponent]

theorem two_zpow_add (a b : Int) : (2 : ℚ) ^ (a + b) = 2 ^ a * 2 ^ b := zpow_add₀ two_ne_zero a b

theorem two_zpow_lt {a b : Int} : (2 : ℚ) ^ a < 2 ^ b ↔ a < b := zpow_lt_zpow_iff_right₀ one_lt_two

/-- The leading bit of the mantissa bounds the number from below. -/
theorem two_zpow_le_of_le {mantissa : Nat} {exponent : Int} {v : ℚ} (hne : mantissa ≠ 0)
    (h : (mantissa : ℚ) ≤ v / 2 ^ exponent) : (2 : ℚ) ^ ((mantissa.log2 : Int) + exponent) ≤ v := by
  have hplace : (0 : ℚ) < 2 ^ exponent := by positivity
  have hbit : (2 : ℚ) ^ mantissa.log2 ≤ mantissa := by exact_mod_cast Nat.log2_self_le hne
  rw [two_zpow_add, zpow_natCast, ← le_div_iff₀ hplace]
  exact hbit.trans h

/-- The leading bit of the mantissa bounds the number from above. -/
theorem lt_two_zpow_of_lt {mantissa : Nat} {exponent : Int} {v : ℚ}
    (h : v / 2 ^ exponent < mantissa + 1) : v < (2 : ℚ) ^ totalExponent mantissa exponent := by
  have hplace : (0 : ℚ) < 2 ^ exponent := by positivity
  have hbit : (mantissa : ℚ) + 1 ≤ 2 ^ (mantissa.log2 + 1) := by exact_mod_cast Nat.lt_log2_self
  have hsplit : totalExponent mantissa exponent = ((mantissa.log2 + 1 : Nat) : Int) + exponent := by
    simp [totalExponent]
  rw [hsplit, two_zpow_add, zpow_natCast, ← div_lt_iff₀ hplace]
  exact h.trans_le hbit

/-- The first shift ends at the exponent of the magnitude, or one below if the number lies below a
power of two that it rounds to. -/
theorem targetExponent_eq {x : Magnitude} (hx : x.IsCanonical) {v : ℚ} (hv : x.Covers v) {mantissa : Nat}
    {exponent : Int} (hlow : (mantissa : ℚ) ≤ v / 2 ^ exponent)
    (hhigh : v / 2 ^ exponent < mantissa + 1)
    (hexponent : exponent ≤ Format.binary64.targetExponent (totalExponent mantissa exponent)) :
    Format.binary64.targetExponent (totalExponent mantissa exponent) = x.exponent ∨
      (Format.binary64.targetExponent (totalExponent mantissa exponent) = x.exponent - 1 ∧
        x.exponent ≠ -1074 ∧ x.significand = 2 ^ 52 ∧ v / 2 ^ x.exponent < x.significand) := by
  have hplace : (0 : ℚ) < 2 ^ x.exponent := by positivity
  have htotal : v < 2 ^ totalExponent mantissa exponent := lt_two_zpow_of_lt hhigh
  obtain ⟨hstarts, hends, -⟩ := hv.places
  have hfits : (x.significand : ℚ) + 1 ≤ 2 ^ 53 := by exact_mod_cast hx.fits
  have hgap := x.gapBelow_le
  rw [targetExponent_binary64] at hexponent ⊢
  have hleast := hx.least
  -- The number lies less than one place above the significand, so the shift ends no higher.
  have habove : max (totalExponent mantissa exponent - 53) (-1074) ≤ x.exponent := by
    by_cases hzero : mantissa = 0
    · have htotal : totalExponent mantissa exponent = 1 + exponent := by simp [totalExponent, hzero]
      omega
    · have hlt : v < 2 ^ ((53 : Int) + x.exponent) := by
        rw [two_zpow_add, ← div_lt_iff₀ hplace]
        linarith [(by norm_num : (2 : ℚ) ^ (53 : Int) = 2 ^ 53)]
      have hbits := two_zpow_lt.mp ((two_zpow_le_of_le hzero hlow).trans_lt hlt)
      have htotal : totalExponent mantissa exponent = mantissa.log2 + 1 + exponent := rfl
      omega
  by_cases hleast : x.exponent = -1074
  · exact .inl (by omega)
  · -- Here the leading bit is there, so the shift ends at most one lower.
    have hfull : (2 : ℚ) ^ 52 ≤ x.significand := by exact_mod_cast hx.full hleast
    have hbelow : (2 : ℚ) ^ ((51 : Int) + x.exponent) < v := by
      rw [two_zpow_add, ← lt_div_iff₀ hplace]
      linarith [(by norm_num : (2 : ℚ) ^ (51 : Int) + 1 ≤ 2 ^ 52)]
    have hbits := two_zpow_lt.mp (hbelow.trans htotal)
    by_cases heq : totalExponent mantissa exponent - 53 = x.exponent
    · exact .inl (by omega)
    · have htotal' : totalExponent mantissa exponent = 52 + x.exponent := by omega
      rw [htotal', two_zpow_add, ← div_lt_iff₀ hplace] at htotal
      have hpower : x.significand = 2 ^ 52 := by
        refine Nat.le_antisymm (Nat.lt_succ_iff.mp ?_) (hx.full hleast)
        have hlt : (x.significand : ℚ) < 2 ^ 52 + 1 := by
          linarith [(by norm_num : (2 : ℚ) ^ (52 : Int) = 2 ^ 52)]
        exact_mod_cast hlt
      refine .inr ⟨by omega, hleast, hpower, ?_⟩
      rw [hpower]
      exact_mod_cast htotal

/-- The significand has its exponent already. -/
theorem shiftToTargetExponent_significand {x : Magnitude} (hx : x.IsCanonical) :
    shiftToTargetExponent .binary64 x.significand x.exponent .exact =
      (⟨x.significand, false, false⟩, x.exponent) := by
  have hlog : x.significand.log2 < 53 := (Nat.log2_lt hx.positive.ne').mpr hx.fits
  have hleast := hx.least
  have hshift : (Format.binary64.targetExponent (totalExponent x.significand x.exponent) -
      x.exponent).toNat = 0 := by
    rw [targetExponent_binary64, totalExponent]
    omega
  rw [shiftToTargetExponent, shiftToExponent, hshift]
  simp [HShiftRight.hShiftRight, Nat.repeat, ExtendedMantissa.ofMantissaAndAccuracy]

/-- A significand that was carried over is shifted once more. -/
theorem shiftToTargetExponent_carried {exponent : Int} (h : -1074 ≤ exponent) :
    shiftToTargetExponent .binary64 (2 ^ 53) (exponent - 1) .exact =
      (⟨2 ^ 52, false, false⟩, exponent) := by
  have hshift : (Format.binary64.targetExponent (totalExponent (2 ^ 53) (exponent - 1)) -
      (exponent - 1)).toNat = 1 := by
    rw [targetExponent_binary64, totalExponent, Nat.log2_two_pow]
    omega
  rw [shiftToTargetExponent, shiftToExponent, hshift]
  simp [HShiftRight.hShiftRight, Nat.repeat, ExtendedMantissa.ofMantissaAndAccuracy,
    ExtendedMantissa.shiftRightOne]

/-- The first shift keeps where the number lies. -/
theorem shiftToTargetExponent_locates {mantissa : Nat} {exponent : Int} {accuracy : Accuracy} {v : ℚ}
    (hlocates : Locates (.ofMantissaAndAccuracy mantissa accuracy) (v / 2 ^ exponent))
    (hexponent : exponent ≤ Format.binary64.targetExponent (totalExponent mantissa exponent)) :
    ∃ em, shiftToTargetExponent .binary64 mantissa exponent accuracy =
        (em, Format.binary64.targetExponent (totalExponent mantissa exponent)) ∧
      Locates em (v / 2 ^ Format.binary64.targetExponent (totalExponent mantissa exponent)) := by
  unfold shiftToTargetExponent shiftToExponent
  generalize Format.binary64.targetExponent (totalExponent mantissa exponent) = target at hexponent
  have htarget : exponent + ((target - exponent).toNat : Int) = target := by omega
  refine ⟨_, Prod.ext rfl htarget, ?_⟩
  have hshifted := locates_shiftRight hlocates (target - exponent).toNat
  rwa [div_div, ← zpow_natCast, ← two_zpow_add, htarget] at hshifted

/-- **Rounding arrives at the magnitude that covers the number.** -/
theorem roundWithAccuracy_eq {x : Magnitude} (hx : x.IsCanonical) {v : ℚ} (hv : x.Covers v)
    {mantissa : Nat} {exponent : Int} {accuracy : Accuracy} (sign : Sign)
    (hlocates : Locates (.ofMantissaAndAccuracy mantissa accuracy) (v / 2 ^ exponent))
    (hexponent : exponent ≤ Format.binary64.targetExponent (totalExponent mantissa exponent)) :
    roundWithAccuracy .binary64 sign mantissa exponent accuracy =
      .finite sign x.significand x.exponent hx.positive := by
  have hmantissa : (ExtendedMantissa.ofMantissaAndAccuracy mantissa accuracy).mantissa = mantissa := by
    rcases accuracy with _ | (_ | _ | _) <;> rfl
  have hbounds := hlocates.bounds
  rw [hmantissa] at hbounds
  have htarget := targetExponent_eq hx hv hbounds.1 hbounds.2 hexponent
  obtain ⟨em, hfirst, hem⟩ := shiftToTargetExponent_locates hlocates hexponent
  obtain ⟨hlow, hhigh, hinside⟩ := hv.places
  have hgap := x.gapBelow_le
  have hsecond : shiftToTargetExponent .binary64 em.roundedMantissa
      (Format.binary64.targetExponent (totalExponent mantissa exponent)) .exact =
        (⟨x.significand, false, false⟩, x.exponent) := by
    rcases htarget with htarget | ⟨htarget, hleast, hpower, hbelow⟩
    · rw [htarget] at hem ⊢
      have hrounded : em.roundedMantissa = x.significand :=
        hem.roundedMantissa_eq (by linarith) hhigh fun hodd =>
          ⟨by linarith [(hinside hodd).1], (hinside hodd).2⟩
      rw [hrounded, shiftToTargetExponent_significand hx]
    · -- Below the power of two the last place is half as wide, and the significand twice as large.
      have hdouble : v / 2 ^ (x.exponent - 1) = 2 * (v / 2 ^ x.exponent) := by
        rw [zpow_sub_one₀ two_ne_zero]
        field_simp
      have hquarter : x.gapBelow = 1 / 4 := if_pos (hx.narrow hleast hpower)
      have hsignificand : (x.significand : ℚ) = 2 ^ 52 := by exact_mod_cast hpower
      rw [htarget, hdouble] at hem
      have hrounded : em.roundedMantissa = 2 ^ 53 := by
        refine hem.roundedMantissa_eq ?_ ?_ fun hodd => absurd hodd (by norm_num)
        · push_cast
          linarith
        · push_cast
          linarith
      rw [htarget, hrounded, shiftToTargetExponent_carried hx.least, hpower]
  unfold roundWithAccuracy
  rw [hfirst]
  dsimp only
  rw [hsecond]
  exact dif_neg hx.positive.ne'

/-! ## Quotients and whole numbers -/

theorem log2_le_log2_div (num : Nat) {den : Nat} (hden : 0 < den) :
    num.log2 ≤ (num / den).log2 + 1 + den.log2 := by
  by_cases hzero : num = 0
  · simp [hzero]
  · have hquotient : num / den + 1 ≤ 2 ^ ((num / den).log2 + 1) := Nat.lt_log2_self
    have hbits : den ≤ 2 ^ (den.log2 + 1) := Nat.lt_log2_self.le
    have hnum : num < 2 ^ ((num / den).log2 + 1 + den.log2 + 1) :=
      calc num < den * (num / den + 1) := Nat.lt_mul_div_succ num hden
        _ ≤ 2 ^ (den.log2 + 1) * 2 ^ ((num / den).log2 + 1) := Nat.mul_le_mul hbits hquotient
        _ = 2 ^ ((num / den).log2 + 1 + den.log2 + 1) := by rw [← pow_add]; congr 1; omega
    exact Nat.lt_succ_iff.mp ((Nat.log2_lt hzero).mpr hnum)

theorem log2_shiftLeft {n : Nat} (hne : n ≠ 0) (places : Nat) : (n <<< places).log2 = n.log2 + places := by
  rw [Nat.shiftLeft_eq]
  induction places with
  | zero => simp
  | succ places ih =>
      have hprod : n * 2 ^ places ≠ 0 := Nat.mul_ne_zero hne (by positivity)
      rw [pow_succ, ← Nat.mul_assoc, Nat.mul_comm, Nat.log2_two_mul hprod, ih, Nat.add_assoc]

/-- **A quotient is the magnitude that covers the exact quotient.** -/
theorem div_eq {x : Magnitude} (hx : x.IsCanonical) {num den : Nat} {numExponent denExponent : Int}
    (hnum : 0 < num) (hden : 0 < den)
    (hv : x.Covers ((num * 2 ^ numExponent) / (den * 2 ^ denExponent))) :
    UnpackedFloat.div .binary64 (.finite .positive num numExponent hnum)
        (.finite .positive den denExponent hden) =
      .finite .positive x.significand x.exponent hx.positive := by
  -- The numerator is shifted so far that the quotient fills the significand.
  obtain ⟨exponent, hexponent⟩ : ∃ exponent, exponent = min (numExponent - denExponent)
      (Format.binary64.targetExponent (totalExponent num numExponent - totalExponent den denExponent)) :=
    ⟨_, rfl⟩
  obtain ⟨shift, hshift⟩ : ∃ shift, shift = (numExponent - denExponent - exponent).toNat := ⟨_, rfl⟩
  have hcore : divCore .binary64 num numExponent den denExponent = ((num <<< shift) / den, exponent,
      accuracyOfFraction ((num <<< shift) % den) den) := by
    rw [divCore, hshift, hexponent]
  have hplaces : (shift : Int) = numExponent - denExponent - exponent := by omega
  have hquotient : ((num <<< shift : Nat) : ℚ) / den =
      (num * 2 ^ numExponent) / (den * 2 ^ denExponent) / 2 ^ exponent := by
    have hpos : (0 : ℚ) < den := Nat.cast_pos.mpr hden
    have hsplit : (2 : ℚ) ^ numExponent = 2 ^ shift * 2 ^ denExponent * 2 ^ exponent := by
      rw [← zpow_natCast, ← two_zpow_add, ← two_zpow_add, hplaces]
      congr 1
      omega
    rw [Nat.shiftLeft_eq, hsplit]
    push_cast
    field_simp
  have hlocates := locates_quotient (num <<< shift) hden
  rw [hquotient] at hlocates
  have henough : exponent ≤ Format.binary64.targetExponent (totalExponent ((num <<< shift) / den) exponent) := by
    have hlog := log2_le_log2_div (num <<< shift) hden
    rw [log2_shiftLeft hnum.ne'] at hlog
    rw [targetExponent_binary64] at hexponent ⊢
    simp only [totalExponent] at hexponent ⊢
    omega
  have hrounded := roundWithAccuracy_eq hx hv (.positive / .positive) hlocates henough
  unfold UnpackedFloat.div
  dsimp only
  rw [hcore]
  exact hrounded

/-- A whole number that fits in a significand, as a magnitude. -/
def wholeMagnitude (n : Nat) : Magnitude :=
  ⟨n <<< (52 - n.log2), -((52 - n.log2 : Nat) : Int), true⟩

theorem isCanonical_wholeMagnitude {n : Nat} (hpos : 0 < n) (hfits : n < 2 ^ 53) :
    (wholeMagnitude n).IsCanonical := by
  have hlog : n.log2 < 53 := (Nat.log2_lt hpos.ne').mpr hfits
  have hlow : 2 ^ 52 ≤ n <<< (52 - n.log2) := by
    calc 2 ^ 52 = 2 ^ n.log2 * 2 ^ (52 - n.log2) := by rw [← pow_add]; congr 1; omega
      _ ≤ n * 2 ^ (52 - n.log2) := Nat.mul_le_mul_right _ (Nat.log2_self_le hpos.ne')
      _ = n <<< (52 - n.log2) := (Nat.shiftLeft_eq _ _).symm
  have hhigh : n <<< (52 - n.log2) < 2 ^ 53 := by
    calc n <<< (52 - n.log2) = n * 2 ^ (52 - n.log2) := Nat.shiftLeft_eq _ _
      _ < 2 ^ (n.log2 + 1) * 2 ^ (52 - n.log2) := Nat.mul_lt_mul_of_pos_right Nat.lt_log2_self (by positivity)
      _ = 2 ^ 53 := by rw [← pow_add]; congr 1; omega
  refine ⟨Nat.lt_of_lt_of_le (by positivity) hlow, hhigh, ?_, fun _ => hlow, fun _ _ => rfl⟩
  show (-1074 : Int) ≤ -((52 - n.log2 : Nat) : Int)
  omega

theorem value_wholeMagnitude (n : Nat) :
    ((wholeMagnitude n).significand : ℚ) * 2 ^ (wholeMagnitude n).exponent = n := by
  simp only [wholeMagnitude, Nat.shiftLeft_eq, zpow_neg, zpow_natCast]
  push_cast
  field_simp

theorem ofNat_eq {n : Nat} (hpos : 0 < n) (hfits : n < 2 ^ 53) :
    UnpackedFloat.ofNat .binary64 n = .finite .positive (wholeMagnitude n).significand
      (wholeMagnitude n).exponent (isCanonical_wholeMagnitude hpos hfits).positive := by
  -- the number has at most 53 binary places: it is shifted to 53 and nothing is rounded
  have hlog : n.log2 < 53 := (Nat.log2_lt hpos.ne').mpr hfits
  have hcompare : compare (n : Int) 0 = .gt := Int.compare_eq_gt.mpr (by omega)
  have htarget : Format.binary64.targetExponent (totalExponent n 0) = (wholeMagnitude n).exponent := by
    rw [targetExponent_binary64, totalExponent]
    show _ = -((52 - n.log2 : Nat) : Int)
    omega
  have hdecrease : decreaseExponent n 0 (wholeMagnitude n).exponent =
      ((wholeMagnitude n).significand, (wholeMagnitude n).exponent) := by
    have hshift : (0 - (wholeMagnitude n).exponent).toNat = 52 - n.log2 := by
      show (0 - -((52 - n.log2 : Nat) : Int)).toNat = _
      omega
    rw [decreaseExponent, hshift]
    simp [wholeMagnitude]
  have hcanonical := isCanonical_wholeMagnitude hpos hfits
  have hlocates : Locates (.ofMantissaAndAccuracy (wholeMagnitude n).significand .exact)
      ((wholeMagnitude n).significand * 2 ^ (wholeMagnitude n).exponent / 2 ^ (wholeMagnitude n).exponent) := by
    rw [mul_div_cancel_right₀ _ (by positivity)]
    rfl
  have hrounded := roundWithAccuracy_eq hcanonical (wholeMagnitude n).covers_self .positive hlocates (by
    rw [targetExponent_binary64, totalExponent]
    show -((52 - n.log2 : Nat) : Int) ≤ max (((n <<< (52 - n.log2)).log2 : Int) + 1 +
      -((52 - n.log2 : Nat) : Int) - 53) (-1074)
    rw [log2_shiftLeft hpos.ne']
    omega)
  rw [UnpackedFloat.ofNat, UnpackedFloat.ofInt, UnpackedFloat.normalize, hcompare]
  simp only [Int.toNat_natCast, UnpackedFloat.round, htarget, hdecrease, hrounded]

end ProgramGraph.Decimal
