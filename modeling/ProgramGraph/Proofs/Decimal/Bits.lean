import ProgramGraph.Proofs.Decimal.Rounding

set_option autoImplicit false

/-! # Binary numbers and their bits

The magnitude that is read off the bits of a finite float is the one that the bits unpack to, and
the packed magnitude is unpacked again. A number keeps its bits.
-/

namespace ProgramGraph.Decimal

open Float.Model Float.Model.UnpackedFloat

/-! ## The fields -/

/-- The field of the exponent. -/
def exponentField (bits : UInt64) : BitVec 11 := @unpackExponent .binary64 bits.toBitVec

/-- The field of the mantissa. -/
def mantissaField (bits : UInt64) : BitVec 52 := @unpackMantissa .binary64 bits.toBitVec

/-- The sign. -/
def signOf (bits : UInt64) : Sign := Sign.ofBitVec (@unpackSign .binary64 bits.toBitVec)

theorem toNat_exponentField (bits : UInt64) :
    (exponentField bits).toNat = ((bits >>> 52) &&& 0x7FF).toNat := by
  have hmask : (0x7FF : UInt64).toNat = 2 ^ 11 - 1 := by decide
  rw [UInt64.toNat_and, hmask, Nat.and_two_pow_sub_one_eq_mod, UInt64.toNat_shiftRight]
  simp [exponentField, unpackExponent, BitVec.extractLsb_toNat]

theorem toNat_mantissaField (bits : UInt64) :
    (mantissaField bits).toNat = (bits &&& 0xFFFFFFFFFFFFF).toNat := by
  have hmask : (0xFFFFFFFFFFFFF : UInt64).toNat = 2 ^ 52 - 1 := by decide
  rw [UInt64.toNat_and, hmask, Nat.and_two_pow_sub_one_eq_mod]
  simp [mantissaField, unpackMantissa, BitVec.extractLsb_toNat]

theorem signOf_eq (bits : UInt64) : signOf bits = if bits >>> 63 = 1 then .negative else .positive := by
  have hbit : (@unpackSign .binary64 bits.toBitVec).toNat = (bits >>> 63).toNat := by
    have hlow : bits.toNat >>> 63 < 2 := by
      rw [Nat.shiftRight_eq_div_pow]
      have := bits.toNat_lt
      omega
    rw [UInt64.toNat_shiftRight]
    simpa [unpackSign, BitVec.extractLsb_toNat] using hlow
  rw [signOf, Sign.ofBitVec]
  rcases BitVec.eq_zero_or_eq_one (@unpackSign .binary64 bits.toBitVec) with hsign | hsign
  · rw [hsign] at hbit ⊢
    rw [if_pos rfl, if_neg fun hone => by simp [hone] at hbit]
  · rw [hsign] at hbit ⊢
    rw [if_neg (by decide), if_pos (UInt64.toNat_inj.mp hbit.symm)]

/-- The exponent of a finite float is not the last one. -/
theorem exponentField_ne {x : Float} (hnumber : x.isNaN = false) (hfinite : x.isInf = false) :
    exponentField x.toBits ≠ -1#11 := by
  intro hexponent
  replace hexponent : @unpackExponent .binary64 x.toBits.toBitVec = -1#11 := hexponent
  have hunpack : x.toModel.unpack = UnpackedFloat.unpack .binary64 x.toBits.toBitVec := rfl
  have hnan : x.toModel.unpack.isNaN = false := hnumber
  have hinf : x.toModel.unpack.isInf = false := hfinite
  rw [hunpack, UnpackedFloat.unpack] at hnan hinf
  dsimp only at hnan hinf
  rw [if_pos hexponent] at hnan hinf
  split at hnan
  · rename_i hmantissa
    rw [if_pos hmantissa] at hinf
    cases hinf
  · cases hnan

/-! ## The magnitude of a finite float -/

section Magnitude

variable {bits : UInt64} (hfinite : exponentField bits ≠ -1#11)
  (hne : (Magnitude.ofBits bits).significand ≠ 0)

/-- The fields of a finite float other than zero: either it is subnormal, and the mantissa is all
there is, or the mantissa stands behind a leading one. -/
theorem ofBits_cases (bits : UInt64) :
    ((exponentField bits).toNat = 0 ∧ Magnitude.ofBits bits = ⟨(mantissaField bits).toNat, -1074, false⟩) ∨
      ((exponentField bits).toNat ≠ 0 ∧ ∃ narrow,
        Magnitude.ofBits bits =
          ⟨2 ^ 52 + (mantissaField bits).toNat, ((exponentField bits).toNat : Int) - 1075, narrow⟩ ∧
        ((exponentField bits).toNat > 1 → (mantissaField bits).toNat = 0 → narrow = true)) := by
  rw [Magnitude.ofBits, ← toNat_exponentField, ← toNat_mantissaField]
  by_cases hzero : (exponentField bits).toNat = 0
  · exact .inl ⟨hzero, if_pos hzero⟩
  · exact .inr ⟨hzero, _, if_neg hzero, fun hlarge hnone => by simp [hlarge, hnone]⟩

include hfinite hne

theorem isCanonical_ofBits : (Magnitude.ofBits bits).IsCanonical ∧ (Magnitude.ofBits bits).exponent ≤ 971 := by
  have hmantissa : (mantissaField bits).toNat < 2 ^ 52 := (mantissaField bits).isLt
  have hexponent : (exponentField bits).toNat < 2047 := by
    have hlt : (exponentField bits).toNat < 2 ^ 11 := (exponentField bits).isLt
    have hne : (exponentField bits).toNat ≠ 2047 := fun heq =>
      hfinite (BitVec.toNat_inj.mp (heq.trans (by decide)))
    omega
  rcases ofBits_cases bits with ⟨hzero, heq⟩ | ⟨hnonzero, narrow, heq, hnarrow⟩
  · rw [heq] at hne ⊢
    refine ⟨⟨Nat.pos_of_ne_zero hne, ?_, ?_, ?_, ?_⟩, ?_⟩ <;> simp only <;> omega
  · rw [heq]
    refine ⟨⟨?_, ?_, ?_, ?_, fun hleast hpower => hnarrow ?_ ?_⟩, ?_⟩ <;> simp only at * <;> omega

end Magnitude

/-! ## Packing and unpacking -/

/-- A mantissa behind its leading one. -/
theorem toNat_one_append (mantissa : BitVec 52) :
    (1#1 ++ mantissa).toNat = 2 ^ 52 + mantissa.toNat := by
  rw [BitVec.toNat_append, ← Nat.shiftLeft_add_eq_or_of_lt mantissa.isLt, Nat.shiftLeft_eq]
  rfl

section Pack

variable {x : Magnitude} (hx : x.IsCanonical) (hhigh : x.exponent ≤ 971)

include hhigh

/-- The fields of a packed magnitude. A significand without its leading bit has the exponent 0. -/
theorem pack_eq (sign : Sign) :
    UnpackedFloat.pack .binary64 (.finite sign x.significand x.exponent hx.positive) =
      packComponents .binary64 sign
        (BitVec.ofNat 11 (if x.significand < 2 ^ 52 then 0 else (x.exponent + 1075).toNat))
        (BitVec.ofNat 52 x.significand) := by
  have hleast := hx.least
  have hbias : (Format.binary64.exponentBias : Int) = 1023 := by decide
  have hbits : Format.binary64.mantissaBits = 53 := by decide
  have hbiased : (x.exponent + Format.binary64.exponentBias + (52 : Nat)).toNat = (x.exponent + 1075).toNat := by
    rw [hbias]
    omega
  rw [UnpackedFloat.pack, hbiased, if_neg (by show ¬2 ^ 11 ≤ _; omega), hbits]
  by_cases hlow : x.significand < 2 ^ 52
  · have hlog := (Nat.log2_lt hx.positive.ne').mpr hlow
    rw [if_neg (by omega), if_pos hlow]
  · have hlog := (Nat.log2_lt hx.positive.ne').mpr hx.fits
    have hfull := (Nat.le_log2 hx.positive.ne').mpr (Nat.le_of_not_lt hlow)
    rw [if_pos (by omega), if_neg hlow]

/-- **A packed magnitude is unpacked again.** -/
theorem unpack_pack (sign : Sign) :
    (Float.Model.pack (.finite sign x.significand x.exponent hx.positive)).unpack =
      .finite sign x.significand x.exponent hx.positive := by
  have hleast := hx.least
  have hfits := hx.fits
  have hbias : (Format.binary64.exponentBias : Int) = 1023 := by decide
  show UnpackedFloat.unpack .binary64 (UnpackedFloat.pack .binary64 _) = _
  rw [pack_eq hx hhigh, UnpackedFloat.unpack]
  simp only [unpackMantissa_packComponents, unpackExponent_packComponents, unpackSign_packComponents,
    Sign.ofBitVec_toBitVec, hbias]
  by_cases hlow : x.significand < 2 ^ 52
  · -- Only at the least exponent may the leading bit be missing.
    have hexponent : x.exponent = -1074 := by
      by_contra hne
      exact absurd (hx.full hne) (by omega)
    have hmantissa : (BitVec.ofNat 52 x.significand).toNat = x.significand := by
      rw [BitVec.toNat_ofNat, Nat.mod_eq_of_lt hlow]
    have hnonzero : BitVec.ofNat 52 x.significand ≠ 0#52 := fun hzero => by
      have hpositive := hx.positive
      rw [hzero] at hmantissa
      simp only [BitVec.toNat_zero] at hmantissa
      omega
    simp only [if_pos hlow, hmantissa]
    rw [if_neg (by decide), if_pos trivial, dif_neg hnonzero]
    simp [hexponent]
  · have hexponent : (BitVec.ofNat 11 (x.exponent + 1075).toNat).toNat = (x.exponent + 1075).toNat := by
      rw [BitVec.toNat_ofNat, Nat.mod_eq_of_lt (by omega)]
    have hmantissa : (1#1 ++ BitVec.ofNat 52 x.significand).toNat = x.significand := by
      rw [toNat_one_append, BitVec.toNat_ofNat]
      omega
    have hfinite : BitVec.ofNat 11 (x.exponent + 1075).toNat ≠ -1#11 := fun heq => by
      rw [heq, show (-1#11).toNat = 2047 by decide] at hexponent
      omega
    have hnormal : BitVec.ofNat 11 (x.exponent + 1075).toNat ≠ 0#11 := fun heq => by
      rw [heq, BitVec.toNat_zero] at hexponent
      omega
    simp only [if_neg hlow, hmantissa, hexponent]
    rw [if_neg hfinite, if_neg hnormal]
    congr 1
    omega

end Pack

/-- **The bits of a finite float unpack to their sign and magnitude.** -/
theorem unpack_ofBits {bits : UInt64} (hfinite : exponentField bits ≠ -1#11)
    (hpos : 0 < (Magnitude.ofBits bits).significand) :
    UnpackedFloat.unpack .binary64 bits.toBitVec = .finite (signOf bits)
      (Magnitude.ofBits bits).significand (Magnitude.ofBits bits).exponent hpos := by
  have hbias : (Format.binary64.exponentBias : Int) = 1023 := by decide
  have hplaces : (Format.binary64.mantissaBitsWithoutImplicit : Int) = 52 := by decide
  -- subnormal or normal: only the latter has the bit that is not written
  rcases ofBits_cases bits with ⟨hzero, heq⟩ | ⟨hnonzero, narrow, heq, -⟩
  · have hexponent : exponentField bits = 0#11 := BitVec.eq_of_toNat_eq hzero
    have hmantissa : mantissaField bits ≠ 0#52 := fun hnone => by
      rw [heq, hnone] at hpos
      exact Nat.lt_irrefl 0 hpos
    refine (if_neg hfinite).trans ((if_pos hexponent).trans ((dif_neg hmantissa).trans ?_))
    rw [finite.injEq, hbias, hplaces, heq]
    refine ⟨rfl, rfl, ?_⟩
    show ((exponentField bits).toNat : Int) - (1023 + 52) + 1 = -1074
    omega
  · have hexponent : exponentField bits ≠ 0#11 := fun hnone => hnonzero (by rw [hnone]; rfl)
    refine (if_neg hfinite).trans ((if_neg hexponent).trans ?_)
    rw [finite.injEq, hbias, hplaces, heq]
    refine ⟨rfl, ?_, by simp only [exponentField]; omega⟩
    show (1#1 ++ mantissaField bits).toNat = 2 ^ 52 + (mantissaField bits).toNat
    exact toNat_one_append _

/-- A number keeps its bits. -/
theorem toBits_ofBits {bits : UInt64} (hnumber : (Float.ofBits bits).isNaN = false) :
    (Float.ofBits bits).toBits = bits := by
  have hpacked := UnpackedFloat.pack_unpack (show BitVec Format.binary64.numBits from bits.toBitVec)
  split at hpacked
  · have hunpack : (Float.ofBits bits).toModel.unpack = .notANumber :=
      (congrArg (UnpackedFloat.unpack .binary64) hpacked).trans unpack_packedNaN
    rw [Float.isNaN, Float.Model.isNaN, hunpack] at hnumber
    cases hnumber
  · exact congrArg UInt64.ofBitVec hpacked

/-! ## The float of a magnitude -/

/-- The float with a sign and a magnitude. -/
def Magnitude.toFloat (x : Magnitude) (sign : Sign) (hpos : 0 < x.significand) : Float :=
  .ofModel (.pack (.finite sign x.significand x.exponent hpos))

/-- A finite float other than zero has the sign and the magnitude of its bits. -/
theorem toFloat_ofBits {x : Float} (hfinite : exponentField x.toBits ≠ -1#11)
    (hpos : 0 < (Magnitude.ofBits x.toBits).significand) :
    (Magnitude.ofBits x.toBits).toFloat (signOf x.toBits) hpos = x := by
  rw [Magnitude.toFloat, ← unpack_ofBits hfinite hpos]
  exact Float.ofBits_toBits x

theorem neg_toFloat {x : Magnitude} (hx : x.IsCanonical) (hhigh : x.exponent ≤ 971) :
    -x.toFloat .positive hx.positive = x.toFloat .negative hx.positive := by
  have hunpack : (x.toFloat .positive hx.positive).toModel.unpack = _ := unpack_pack hx hhigh .positive
  show Float.ofModel (.pack (x.toFloat .positive hx.positive).toModel.unpack.neg) = _
  rw [hunpack]
  rfl

end ProgramGraph.Decimal
