import Mathlib.Algebra.Group.Int.Defs
import Mathlib.Algebra.Group.Nat.Defs
import ProgramGraph.MsgPack.Decode
import ProgramGraph.MsgPack.Encode

set_option autoImplicit false

/-! # Numbers in the binary encoding are read back

A number of some bytes, highest first, is read back if it fits these bytes. So is every
integer of the wire: one that is not negative in an unsigned form, any other in a signed one.
-/

namespace ProgramGraph.MsgPack

open ProgramGraph.Text ProgramGraph.Wire

theorem length_bigEndian (count n : Nat) : (bigEndian count n).length = count := by
  simp [bigEndian]

/-- The lowest byte comes last. -/
theorem bigEndian_succ (count n : Nat) :
    bigEndian (count + 1) n = bigEndian count (n / 256) ++ [UInt8.ofNat n] := by
  unfold bigEndian
  rw [List.range_succ, List.map_append, List.map_singleton]
  congr 1
  · refine List.map_congr_left fun i hi => ?_
    have hlt : i < count := List.mem_range.mp hi
    have hshift : 8 * (count + 1 - 1 - i) = 8 + 8 * (count - 1 - i) := by omega
    rw [hshift, Nat.shiftRight_add, Nat.shiftRight_eq_div_pow n 8]
  · simp

theorem natOfBytes_append (bytes : Bytes) (b : UInt8) :
    natOfBytes (bytes ++ [b]) = 256 * natOfBytes bytes + b.toNat := by
  simp [natOfBytes]

theorem natOfBytes_bigEndian {count n : Nat} (h : n < 256 ^ count) :
    natOfBytes (bigEndian count n) = n := by
  induction count generalizing n with
  | zero =>
      obtain rfl : n = 0 := by simpa using h
      rfl
  | succ count ih =>
      rw [bigEndian_succ, natOfBytes_append, ih (by rw [Nat.pow_succ] at h; omega)]
      simp only [UInt8.toNat_ofNat']
      omega

theorem takeBytes?_append (front rest : Bytes) :
    takeBytes? front.length (front ++ rest) = some (front, rest) := by
  simp [takeBytes?]

/-- A number that fits its bytes is read back. -/
theorem takeNat?_bigEndian (count : Nat) {n : Nat} (h : n < 256 ^ count) (rest : Bytes) :
    takeNat? count (bigEndian count n ++ rest) = some (n, rest) := by
  have htake := takeBytes?_append (bigEndian count n) rest
  rw [length_bigEndian] at htake
  simp [takeNat?, htake, natOfBytes_bigEndian h]

theorem shiftLeft_bytes (count : Nat) : 1 <<< (8 * count) = 256 ^ count := by
  rw [Nat.one_shiftLeft, Nat.pow_mul]

theorem shiftLeft_half {count : Nat} (h : 0 < count) :
    2 * 1 <<< (8 * count - 1) = 256 ^ count := by
  have hexponent : 8 * count = (8 * count - 1) + 1 := by omega
  rw [← shiftLeft_bytes, hexponent, Nat.one_shiftLeft, Nat.one_shiftLeft, Nat.pow_succ,
    Nat.mul_comm, Nat.add_sub_cancel]

/-- A negative number that fits its bytes in two's complement is read back. -/
theorem takeInt?_bigEndian (count : Nat) {n : Nat} (hcount : 0 < count) (h : 2 * n < 256 ^ count)
    (rest : Bytes) :
    takeInt? count (bigEndian count (256 ^ count - 1 - n) ++ rest) = some (Int.negSucc n, rest) := by
  have hhalf := shiftLeft_half hcount
  have hlow : ¬256 ^ count - 1 - n < 1 <<< (8 * count - 1) := by omega
  rw [takeInt?, takeNat?_bigEndian count (by omega), Option.map_some, shiftLeft_bytes]
  simp only [hlow, if_false, Option.some.injEq, Prod.mk.injEq, and_true]
  omega

/-! ## Integers -/

section Forms

variable {fuel depth width length n : Nat} {marker : UInt8} {bytes rest : Bytes}

theorem read?_whole {v : Value} (h : form? marker.toNat = some (.whole v)) :
    read? (fuel + 1) depth (marker :: bytes) = some (v, bytes) := by
  rw [read?, h]
  rfl

theorem read?_unsigned (h : form? marker.toNat = some (.unsigned width))
    (htake : takeNat? width bytes = some (n, rest)) :
    read? (fuel + 1) depth (marker :: bytes) = some (.integer n, rest) := by
  rw [read?, h]
  simp [htake]

theorem read?_signed {m : Int} (h : form? marker.toNat = some (.signed width))
    (htake : takeInt? width bytes = some (m, rest)) :
    read? (fuel + 1) depth (marker :: bytes) = some (.signed m, rest) := by
  rw [read?, h]
  simp [htake]

theorem read?_float (h : form? marker.toNat = some (.float width))
    (htake : takeNat? width bytes = some (n, rest)) :
    read? (fuel + 1) depth (marker :: bytes) = some (.float (floatOfBits width n), rest) := by
  rw [read?, h]
  simp [htake]

theorem read?_text (h : form? marker.toNat = some (.text length)) :
    read? (fuel + 1) depth (marker :: bytes) = readText? length bytes := by
  rw [read?, h]
  rfl

theorem read?_textWidth (h : form? marker.toNat = some (.textWidth width))
    (htake : takeNat? width bytes = some (length, rest)) :
    read? (fuel + 1) depth (marker :: bytes) = readText? length rest := by
  rw [read?, h]
  simp [htake]

theorem read?_list (h : form? marker.toNat = some (.list length)) :
    read? (fuel + 1) depth (marker :: bytes) = readList? fuel depth length bytes := by
  rw [read?, h]
  rfl

theorem read?_listWidth (h : form? marker.toNat = some (.listWidth width))
    (htake : takeNat? width bytes = some (length, rest)) :
    read? (fuel + 1) depth (marker :: bytes) = readList? fuel depth length rest := by
  rw [read?, h]
  simp [htake]

theorem read?_map (h : form? marker.toNat = some (.map length)) :
    read? (fuel + 1) depth (marker :: bytes) = readMap? fuel depth length bytes := by
  rw [read?, h]
  rfl

theorem read?_mapWidth (h : form? marker.toNat = some (.mapWidth width))
    (htake : takeNat? width bytes = some (length, rest)) :
    read? (fuel + 1) depth (marker :: bytes) = readMap? fuel depth length rest := by
  rw [read?, h]
  simp [htake]

end Forms

/-- An integer that is not negative is read as one without sign. -/
theorem read?_writeNat {n : Nat} (h : n < 2 ^ 64) (fuel depth : Nat) (rest : Bytes) :
    read? (fuel + 1) depth (writeNat n ++ rest) = some (.integer n, rest) := by
  unfold writeNat
  split
  · rename_i hn
    refine read?_whole ?_
    have hbyte : (UInt8.ofNat n).toNat = n := by rw [UInt8.toNat_ofNat']; omega
    simp [form?, hbyte, hn]
  split
  · rename_i hn
    exact read?_unsigned rfl (takeNat?_bigEndian 1 hn rest)
  split
  · rename_i hn
    exact read?_unsigned rfl (takeNat?_bigEndian 2 hn rest)
  split
  · rename_i hn
    exact read?_unsigned rfl (takeNat?_bigEndian 4 hn rest)
  · exact read?_unsigned rfl (takeNat?_bigEndian 8 h rest)

/-- A negative integer is read as one with sign. -/
theorem read?_writeNegative {n : Nat} (h : n < 2 ^ 63) (fuel depth : Nat) (rest : Bytes) :
    read? (fuel + 1) depth (writeNegative n ++ rest) = some (.signed (Int.negSucc n), rest) := by
  unfold writeNegative
  split
  · rename_i hn
    refine read?_whole ?_
    have hbyte : (UInt8.ofNat (255 - n)).toNat = 255 - n := by rw [UInt8.toNat_ofNat']; omega
    -- the byte lies above every marker that is tried before that of a negative integer
    have hlarge : ∀ bound, bound ≤ 0xc0 → ¬255 - n < bound := by omega
    have hmarker : 0xe0 ≤ 255 - n := by omega
    have hvalue : ((255 - n : Nat) : Int) - 256 = Int.negSucc n := by omega
    simp only [form?, hbyte, hlarge _ (by decide : 0x80 ≤ 0xc0), hlarge _ (by decide : 0x90 ≤ 0xc0),
      hlarge _ (by decide : 0xa0 ≤ 0xc0), hlarge _ (Nat.le_refl _), hmarker, if_true, if_false,
      hvalue]
  split
  · rename_i hn
    exact read?_signed rfl (takeInt?_bigEndian 1 (by decide)
      (by simp only [UInt8.size] at hn; omega) rest)
  split
  · rename_i hn
    exact read?_signed rfl (takeInt?_bigEndian 2 (by decide)
      (by simp only [UInt16.size] at hn; omega) rest)
  split
  · rename_i hn
    exact read?_signed rfl (takeInt?_bigEndian 4 (by decide)
      (by simp only [UInt32.size] at hn; omega) rest)
  · exact read?_signed rfl (takeInt?_bigEndian 8 (by decide) (by omega) rest)

end ProgramGraph.MsgPack
