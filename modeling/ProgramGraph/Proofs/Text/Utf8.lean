import ProgramGraph.Text.Utf8

set_option autoImplicit false

/-! # The encoding of texts

The bytes of a text determine it, they are appended as texts are, and they are in the order of
the texts. So a store that sorts bytes and one that sorts texts agree on the order.
-/

namespace ProgramGraph.Text

/-! ## Bytes of one text -/

theorem utf8_append (a b : String) : utf8 (a ++ b) = utf8 a ++ utf8 b := by
  simp [utf8]

/-- The bytes are those that the text itself holds. -/
theorem utf8_eq_data (s : String) : (utf8 s).toByteArray = s.toByteArray := by
  rw [← String.utf8Encode_toList]
  rfl

/-- A text is read back from its bytes. -/
theorem ofUtf8?_utf8 (s : String) : ofUtf8? (utf8 s) = some s := by
  have hbytes : (⟨(utf8 s).toArray⟩ : ByteArray) = s.toByteArray := by
    rw [← utf8_eq_data]
    apply ByteArray.ext
    simp
  have hvalid := s.isValidUTF8
  simp [ofUtf8?, String.fromUTF8?, hbytes, hvalid, String.fromUTF8]

theorem utf8_injective {a b : String} (h : utf8 a = utf8 b) : a = b := by
  have hread := congrArg ofUtf8? h
  simpa [ofUtf8?_utf8] using hread

/-! ## The order of bytes -/

/-- Bytes behind the first of a character. -/
theorem toNat_follower (n : Nat) : (UInt8.ofNat (n % 0x40 + 0x80)).toNat = n % 64 + 128 := by
  rw [UInt8.toNat_ofNat']
  omega

/-- The first byte of four. -/
theorem toNat_leader (n : Nat) : (UInt8.ofNat (n % 0x08 + 0xf0)).toNat = n % 8 + 240 := by
  rw [UInt8.toNat_ofNat']
  omega

/-- Two shifts by six bits. -/
theorem div_4096 (n : Nat) : n / 4096 = n / 64 / 64 := by omega

/-- Three shifts by six bits. -/
theorem div_262144 (n : Nat) : n / 262144 = n / 64 / 64 / 64 := by omega

/-- Of two characters the lesser has the lesser bytes, whatever follows them. -/
theorem encodeChar_append_lt {c d : Char} (h : c < d) (x y : Bytes) :
    String.utf8EncodeChar c ++ x < String.utf8EncodeChar d ++ y := by
  have hlt : c.val.toNat < d.val.toNat := h
  have hd : d.val.toNat < 0x110000 := by
    have := d.valid
    simp only [UInt32.isValidChar, Nat.isValidChar] at this
    omega
  unfold String.utf8EncodeChar
  dsimp only
  split <;> split <;> try omega
  all_goals (repeat' split) <;> try omega
  all_goals
    simp only [List.cons_append, List.nil_append, List.cons_lt_cons_iff, UInt8.lt_iff_toNat_lt,
      ← UInt8.toNat_inj, toNat_follower, toNat_leader, UInt8.toNat_ofNat', div_4096, div_262144]
    omega

theorem chars_lt {xs ys : List Char} (h : xs < ys) :
    xs.flatMap String.utf8EncodeChar < ys.flatMap String.utf8EncodeChar := by
  induction xs generalizing ys with
  | nil =>
      cases ys with
      | nil => exact absurd h (List.lt_irrefl _)
      | cons d ys =>
          cases hd : String.utf8EncodeChar d with
          | nil => exact absurd hd String.utf8EncodeChar_ne_nil
          | cons b bytes => simp [hd]
  | cons c xs ih =>
      cases ys with
      | nil => simp at h
      | cons d ys =>
          rw [List.flatMap_cons, List.flatMap_cons]
          rcases List.cons_lt_cons_iff.mp h with hlt | ⟨rfl, hlt⟩
          · exact encodeChar_append_lt hlt _ _
          · exact List.append_left_lt (ih hlt)

/-- Texts are in the order of their bytes. -/
theorem utf8_lt_utf8 {a b : String} : utf8 a < utf8 b ↔ a < b := by
  refine ⟨fun h => ?_, chars_lt⟩
  by_cases hlt : a < b
  · exact hlt
  · by_cases hgt : b < a
    · exact absurd (chars_lt hgt) (List.lt_asymm h)
    · have heq : a = b := String.le_antisymm hgt hlt
      exact absurd h (heq ▸ List.lt_irrefl _)

end ProgramGraph.Text
