import ProgramGraph.Proofs.Store.Records

set_option autoImplicit false

/-! # How long entries live

What is saved for a span of time is there until a moment, which is never the zero that stands for
never, as long as the clock has left zero. The milliseconds of the span are taken as a word of 64 bits
before they are added, so a longer span can come out shorter. Which of two spans outlives the other is
a question of these words (`Keyed.outlives_iff`).
-/

namespace ProgramGraph

open ProgramGraph.Text

namespace Keyed

variable {s : Keyed} {d long short : Duration}

/-- The moment at which something saved now for a span of time is gone. -/
def endOf (s : Keyed) (d : Duration) : Nat :=
  min (s.now.toNat + d.milliseconds % UInt64.size) (UInt64.size - 1)

theorem endOf_lt_size : s.endOf d < UInt64.size := Nat.lt_of_le_of_lt (Nat.min_le_right _ _) (by decide)

/-- The end never lies before the moment of saving. -/
theorem now_le_endOf : s.now.toNat ≤ s.endOf d :=
  Nat.le_min.mpr ⟨Nat.le_add_right _ _, Nat.le_sub_one_of_lt s.now.toNat_lt_size⟩

theorem toNat_expiry_span : (s.expiry (.span d)).toNat = s.endOf d :=
  UInt64.toNat_ofNat_of_lt' endOf_lt_size

/-- What is saved for a span of time is there at the moments before its end, and at no others. -/
theorem unpack?_span_iff (hnow : 0 < s.now) {later : UInt64} {payload : Bytes} :
    Envelope.unpack? later (Envelope.pack (s.expiry (.span d)) payload) = some payload ↔
      later.toNat < s.endOf d := by
  have hend : 0 < s.endOf d := Nat.lt_of_lt_of_le (UInt64.lt_iff_toNat_lt.mp hnow) now_le_endOf
  have hnever : s.expiry (.span d) ≠ 0 := fun hzero => by
    rw [← toNat_expiry_span, hzero] at hend
    exact Nat.lt_irrefl 0 hend
  have hle : s.expiry (.span d) ≤ later ↔ s.endOf d ≤ later.toNat := by
    rw [UInt64.le_iff_toNat_le, toNat_expiry_span]
  rw [Envelope.unpack?_pack_eq]
  simp [hnever, hle]

/-- Whatever is saved now for the one span of time is there for as long as it would be if it were saved
for the other. -/
def Outlives (s : Keyed) (long short : Duration) : Prop :=
  ∀ (later : UInt64) (payload : Bytes), s.now ≤ later →
    Envelope.unpack? later (Envelope.pack (s.expiry (.span short)) payload) = some payload →
      Envelope.unpack? later (Envelope.pack (s.expiry (.span long)) payload) = some payload

theorem outlives_iff_endOf_le (hnow : 0 < s.now) : s.Outlives long short ↔ s.endOf short ≤ s.endOf long := by
  constructor
  · -- At the end of the one span, what is saved for the other has to be gone as well.
    intro h
    by_contra hend
    let last : UInt64 := UInt64.ofNat (s.endOf long)
    have hlast : last.toNat = s.endOf long := UInt64.toNat_ofNat_of_lt' endOf_lt_size
    have hlater : s.now ≤ last := by
      rw [UInt64.le_iff_toNat_le, hlast]
      exact now_le_endOf
    have hthere := h last [] hlater ((unpack?_span_iff hnow).mpr (by rw [hlast]; omega))
    rw [unpack?_span_iff hnow, hlast] at hthere
    exact Nat.lt_irrefl _ hthere
  · intro hend later payload _ hshort
    rw [unpack?_span_iff hnow] at hshort ⊢
    exact Nat.lt_of_lt_of_le hshort hend

/-- **One span of time outlives another** just if its milliseconds, as a word, are no fewer, or reach
beyond the last moment there is. So a longer span does wherever its milliseconds fit a word. -/
theorem outlives_iff (hnow : 0 < s.now) (long short : Duration) :
    (s.Outlives long short ↔
      short.milliseconds % UInt64.size ≤ long.milliseconds % UInt64.size ∨
        UInt64.size - 1 ≤ s.now.toNat + long.milliseconds % UInt64.size) ∧
    (short.nanoseconds ≤ long.nanoseconds → long.milliseconds < UInt64.size → s.Outlives long short) := by
  have hiff : s.Outlives long short ↔
      short.milliseconds % UInt64.size ≤ long.milliseconds % UInt64.size ∨
        UInt64.size - 1 ≤ s.now.toNat + long.milliseconds % UInt64.size := by
    rw [outlives_iff_endOf_le hnow, endOf, endOf]
    omega
  refine ⟨hiff, fun hle hfits => hiff.mpr (.inl ?_)⟩
  have hmilliseconds : short.milliseconds ≤ long.milliseconds := Nat.div_le_div_right hle
  rw [Nat.mod_eq_of_lt hfits, Nat.mod_eq_of_lt (Nat.lt_of_le_of_lt hmilliseconds hfits)]
  exact hmilliseconds

/-- A day outlives an hour, and not the other way round. -/
theorem outlives_iff_day :
    (ofEntries .standard ∅ 1).Outlives (.ofSeconds 86400) (.ofSeconds 3600) ∧
      ¬(ofEntries .standard ∅ 1).Outlives (.ofSeconds 3600) (.ofSeconds 86400) :=
  ⟨(outlives_iff (by decide) _ _).2 (by decide) (by decide),
    fun h => absurd ((outlives_iff (by decide) _ _).1.mp h) (by decide)⟩

/-- `2 ^ 61` seconds do not: their milliseconds are a multiple of `2 ^ 64`. -/
theorem not_outlives_longest :
    (Duration.ofSeconds 3600).nanoseconds ≤ (Duration.ofSeconds 2305843009213693952).nanoseconds ∧
      ¬(ofEntries .standard ∅ 1).Outlives (.ofSeconds 2305843009213693952) (.ofSeconds 3600) := by
  refine ⟨by decide, fun h => ?_⟩
  have hend := (outlives_iff_endOf_le (by decide)).mp h
  exact absurd hend (by decide)

end Keyed

end ProgramGraph
