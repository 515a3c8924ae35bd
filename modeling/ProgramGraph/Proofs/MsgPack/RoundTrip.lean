import ProgramGraph.Proofs.MsgPack.Number
import ProgramGraph.Proofs.Text.Utf8

set_option autoImplicit false

/-! # What the binary encoding keeps

Reading an encoded value gives the value again, up to one thing: an integer comes back in the
form it was written in, a negative one as an integer with sign. The format has forms for lengths
below `2 ^ 32` only, and a reader bounds the nesting; `Fits` says that a value keeps within both.
-/

namespace ProgramGraph.MsgPack

open ProgramGraph.Text ProgramGraph.Wire

mutual

/-- The value as it is read back. -/
def reread : Value → Value
  | .integer n | .signed n => if n < 0 then .signed n else .integer n
  | .list items => .list (rereadItems items)
  | .map entries => .map (rereadEntries entries)
  | v => v

/-- The items of a list as they are read back. -/
def rereadItems : List Value → List Value
  | [] => []
  | v :: rest => reread v :: rereadItems rest

/-- The entries of a map as they are read back. -/
def rereadEntries : List (Key × Value) → List (Key × Value)
  | [] => []
  | (key, v) :: rest => (key, reread v) :: rereadEntries rest

end

/-- The value keeps within the lengths of the format, and is nested no deeper than a bound. -/
inductive Fits : Nat → Value → Prop where
  | null (depth : Nat) : Fits depth .null
  | bool (depth : Nat) (b : Bool) : Fits depth (.bool b)
  | integer (depth : Nat) {n : Int} (low : -(2 ^ 63 : Int) ≤ n) (high : n < 2 ^ 64) :
      Fits depth (.integer n)
  | float (depth : Nat) (x : Binary64) : Fits depth (.float x)
  | text (depth : Nat) {s : String} (short : (utf8 s).length < 2 ^ 32) : Fits depth (.text s)
  | list {depth : Nat} {items : List Value} (short : items.length < 2 ^ 32)
      (fit : ∀ v ∈ items, Fits depth v) : Fits (depth + 1) (.list items)
  | map {depth : Nat} {entries : List (Key × Value)} (short : entries.length < 2 ^ 32)
      (names : ∀ entry ∈ entries, ∃ s, entry.1 = .name s ∧ (utf8 s).length < 2 ^ 32)
      (fit : ∀ entry ∈ entries, Fits depth entry.2) : Fits (depth + 1) (.map entries)

/-! ## Lengths and texts -/

/-- A short text is announced by its marker byte. -/
theorem form?_text {n : Nat} (h : n < 32) :
    form? ((0xa0 : UInt8) ||| UInt8.ofNat n).toNat = some (.text n) := by
  have hmarker : ∀ k : Fin 32, ((0xa0 : UInt8) ||| UInt8.ofNat k).toNat = 0xa0 + k := by decide
  have hlow : ∀ bound, bound ≤ 0xa0 → ¬0xa0 + n < bound := by omega
  have hhigh : 0xa0 + n < 0xc0 := by omega
  rw [hmarker ⟨n, h⟩]
  simp only [form?, hlow 0x80 (by decide), hlow 0x90 (by decide), hlow 0xa0 (by decide), hhigh,
    if_true, if_false, Nat.add_sub_cancel_left]

/-- A short list is announced by its marker byte. -/
theorem form?_list {n : Nat} (h : n < 16) :
    form? ((0x90 : UInt8) ||| UInt8.ofNat n).toNat = some (.list n) := by
  have hmarker : ∀ k : Fin 16, ((0x90 : UInt8) ||| UInt8.ofNat k).toNat = 0x90 + k := by decide
  have hlow : ∀ bound, bound ≤ 0x90 → ¬0x90 + n < bound := by omega
  have hhigh : 0x90 + n < 0xa0 := by omega
  rw [hmarker ⟨n, h⟩]
  simp only [form?, hlow 0x80 (by decide), hlow 0x90 (by decide), hhigh, if_true, if_false,
    Nat.add_sub_cancel_left]

/-- A short map is announced by its marker byte. -/
theorem form?_map {n : Nat} (h : n < 16) :
    form? ((0x80 : UInt8) ||| UInt8.ofNat n).toNat = some (.map n) := by
  have hmarker : ∀ k : Fin 16, ((0x80 : UInt8) ||| UInt8.ofNat k).toNat = 0x80 + k := by decide
  have hlow : ¬0x80 + n < 0x80 := by omega
  have hhigh : 0x80 + n < 0x90 := by omega
  rw [hmarker ⟨n, h⟩]
  simp only [form?, hlow, hhigh, if_true, if_false, Nat.add_sub_cancel_left]

theorem readText?_utf8 (s : String) (rest : Bytes) :
    readText? (utf8 s).length (utf8 s ++ rest) = some (.text s, rest) := by
  simp [readText?, takeBytes?_append, textOf, ofUtf8?_utf8]

/-- **A text is read back.** -/
theorem read?_writeText {s : String} (h : (utf8 s).length < 2 ^ 32) (fuel depth : Nat)
    (rest : Bytes) : read? (fuel + 1) depth (writeText s ++ rest) = some (.text s, rest) := by
  unfold writeText writeLength
  dsimp only
  split
  · rename_i hn
    simp only [Bool.and_eq_true, decide_eq_true_eq] at hn
    rw [List.append_assoc, List.cons_append,
      read?_textWidth rfl (takeNat?_bigEndian 1 hn.2 _), readText?_utf8]
  rw [List.append_assoc]
  split
  · rename_i hn
    rw [List.singleton_append, read?_text (form?_text hn), readText?_utf8]
  split
  · rename_i hn
    rw [List.cons_append, read?_textWidth rfl (takeNat?_bigEndian 2 hn _),
      readText?_utf8]
  · rw [List.cons_append, read?_textWidth rfl (takeNat?_bigEndian 4 h _),
      readText?_utf8]

theorem read?_writeList {n : Nat} (h : n < 2 ^ 32) (fuel depth : Nat) (bytes : Bytes) :
    read? (fuel + 1) depth (writeLength 0x90 16 0xdc 0xdd n ++ bytes) =
      readList? fuel depth n bytes := by
  unfold writeLength
  split
  · rename_i hn
    exact read?_list (form?_list hn)
  split
  · rename_i hn
    exact read?_listWidth rfl (takeNat?_bigEndian 2 hn _)
  · exact read?_listWidth rfl (takeNat?_bigEndian 4 h _)

theorem read?_writeMap {n : Nat} (h : n < 2 ^ 32) (fuel depth : Nat) (bytes : Bytes) :
    read? (fuel + 1) depth (writeLength 0x80 16 0xde 0xdf n ++ bytes) =
      readMap? fuel depth n bytes := by
  unfold writeLength
  split
  · rename_i hn
    exact read?_map (form?_map hn)
  split
  · rename_i hn
    exact read?_mapWidth rfl (takeNat?_bigEndian 2 hn _)
  · exact read?_mapWidth rfl (takeNat?_bigEndian 4 h _)

/-! ## Values -/

theorem writeLength_length_pos (short : UInt8) (bound : Nat) (two four : UInt8) (n : Nat) :
    0 < (writeLength short bound two four n).length := by
  unfold writeLength
  split
  · exact Nat.succ_pos _
  split <;> exact Nat.succ_pos _

theorem writeText_length_pos (s : String) : 0 < (writeText s).length := by
  unfold writeText
  dsimp only
  rw [List.length_append]
  split
  · exact Nat.lt_of_lt_of_le (Nat.succ_pos _) (Nat.le_add_right _ _)
  · exact Nat.lt_of_lt_of_le (writeLength_length_pos ..) (Nat.le_add_right _ _)

theorem writeInteger_length_pos (n : Int) : 0 < (writeInteger n).length := by
  cases n with
  | ofNat n =>
      rw [writeInteger, writeNat]
      repeat' split
      all_goals exact Nat.succ_pos _
  | negSucc n =>
      rw [writeInteger, writeNegative]
      repeat' split
      all_goals exact Nat.succ_pos _

/-- Every encoding has a byte at least. -/
theorem encode_length_pos {depth : Nat} {v : Value} (h : Fits depth v) :
    0 < (encode v).length := by
  cases h with
  | null | bool | float => exact Nat.succ_pos _
  | integer =>
      rw [encode]
      exact writeInteger_length_pos _
  | text =>
      rw [encode]
      exact writeText_length_pos _
  | list | map =>
      rw [encode, List.length_append]
      exact Nat.lt_of_lt_of_le (writeLength_length_pos ..) (Nat.le_add_right _ _)

theorem mapM_names {entries : List (Key × Value)}
    (h : ∀ entry ∈ entries, ∃ s, entry.1 = .name s ∧ (utf8 s).length < 2 ^ 32) :
    ((rereadEntries entries).map fun entry => (Value.text entry.1.display, entry.2)).mapM
        (fun (key, v) => (keyOf? key).map (·, v)) = some (rereadEntries entries) := by
  induction entries with
  | nil => rfl
  | cons entry rest ih =>
      obtain ⟨s, hs, -⟩ := h entry List.mem_cons_self
      obtain ⟨key, v⟩ := entry
      obtain rfl : key = .name s := hs
      rw [rereadEntries, List.map_cons, List.mapM_cons,
        ih fun other hother => h other (List.mem_cons_of_mem _ hother)]
      rfl

/-- The entries of a map with names as keys make a map again. -/
theorem mapOf_names {entries : List (Key × Value)}
    (h : ∀ entry ∈ entries, ∃ s, entry.1 = .name s ∧ (utf8 s).length < 2 ^ 32) :
    mapOf ((rereadEntries entries).map fun entry => (.text entry.1.display, entry.2)) =
      .map (rereadEntries entries) := by
  unfold mapOf
  rw [mapM_names h]

/-- An integer of the format is read back. -/
theorem read?_writeInteger {n : Int} (low : -(2 ^ 63 : Int) ≤ n) (high : n < 2 ^ 64)
    (fuel depth : Nat) (rest : Bytes) :
    read? (fuel + 1) depth (writeInteger n ++ rest) = some (reread (.integer n), rest) := by
  cases n with
  | ofNat n =>
      have hn : n < 2 ^ 64 := by
        have hn : (n : Int) < 2 ^ 64 := high
        omega
      have hnot : ¬Int.ofNat n < 0 := Int.not_lt.mpr (Int.natCast_nonneg n)
      rw [writeInteger, read?_writeNat hn, reread, if_neg hnot]
      rfl
  | negSucc n =>
      have hn : n < 2 ^ 63 := by omega
      rw [writeInteger, read?_writeNegative hn, reread, if_pos (by omega)]

/-- A float is read back bit by bit. -/
theorem read?_writeFloat (x : Binary64) (fuel depth : Nat) (rest : Bytes) :
    read? (fuel + 1) depth (0xcb :: bigEndian 8 x.bits.toNat ++ rest) = some (.float x, rest) := by
  rw [List.cons_append,
    read?_float rfl (takeNat?_bigEndian 8 (UInt64.toNat_lt _) _)]
  show some (Value.float ⟨UInt64.ofNat x.bits.toNat⟩, rest) = _
  rw [UInt64.ofNat_toNat]

theorem readItems?_cons {fuel depth count : Nat} {bytes rest after : Bytes} {v : Value}
    {items : List Value} (hv : read? fuel depth bytes = some (v, rest))
    (hitems : readItems? fuel depth count rest = some (items, after)) :
    readItems? (fuel + 1) depth (count + 1) bytes = some (v :: items, after) := by
  simp [readItems?, hv, hitems]

theorem readEntries?_cons {fuel depth count : Nat} {bytes afterKey rest after : Bytes}
    {key v : Value} {entries : List (Value × Value)}
    (hkey : read? fuel depth bytes = some (key, afterKey))
    (hv : read? fuel depth afterKey = some (v, rest))
    (hentries : readEntries? fuel depth count rest = some (entries, after)) :
    readEntries? (fuel + 1) depth (count + 1) bytes = some ((key, v) :: entries, after) := by
  simp [readEntries?, hkey, hv, hentries]

mutual

/-- A value that fits is read back, whatever follows it. -/
theorem read?_encode : ∀ (fuel : Nat) {depth : Nat} {v : Value} (rest : Bytes), Fits depth v →
    3 * (encode v).length ≤ fuel → read? fuel depth (encode v ++ rest) = some (reread v, rest)
  | 0, depth, v, rest, hv, hfuel => by
      have hpos := encode_length_pos hv
      omega
  | fuel + 1, _, .null, rest, _, _ => read?_whole rfl
  | fuel + 1, _, .bool true, rest, _, _ => read?_whole rfl
  | fuel + 1, _, .bool false, rest, _, _ => read?_whole rfl
  | fuel + 1, depth, .integer n, rest, .integer _ hlow hhigh, _ =>
      read?_writeInteger hlow hhigh fuel depth rest
  | fuel + 1, depth, .float x, rest, _, _ => read?_writeFloat x fuel depth rest
  | fuel + 1, depth, .text s, rest, .text _ hshort, _ => read?_writeText hshort fuel depth rest
  | fuel + 1, depth + 1, .list items, rest, .list hshort hfit, hfuel => by
      have hpos := writeLength_length_pos 0x90 16 0xdc 0xdd items.length
      rw [encode, List.length_append] at hfuel
      -- a level costs three steps: the value, its items, and the first of them
      obtain ⟨fuel, rfl⟩ : ∃ k, fuel = k + 1 := ⟨fuel - 1, by omega⟩
      rw [encode, List.append_assoc, read?_writeList hshort, readList?,
        readItems?_encode fuel rest hfit (by omega)]
      rfl
  | fuel + 1, depth + 1, .map entries, rest, .map hshort hnames hfit, hfuel => by
      have hpos := writeLength_length_pos 0x80 16 0xde 0xdf entries.length
      rw [encode, List.length_append] at hfuel
      obtain ⟨fuel, rfl⟩ : ∃ k, fuel = k + 1 := ⟨fuel - 1, by omega⟩
      rw [encode, List.append_assoc, read?_writeMap hshort, readMap?,
        readEntries?_encode fuel rest hnames hfit (by omega), Option.map_some]
      exact congrArg (fun v => some (v, rest)) (mapOf_names hnames)

/-- Items that fit are read back. -/
theorem readItems?_encode : ∀ (fuel : Nat) {depth : Nat} {items : List Value} (rest : Bytes),
    (∀ v ∈ items, Fits depth v) → 3 * (encodeItems items).length + 1 ≤ fuel →
      readItems? fuel depth items.length (encodeItems items ++ rest) =
        some (rereadItems items, rest)
  | 0, _, _, _, _, hfuel => by omega
  | fuel + 1, _, [], rest, _, _ => by simp [encodeItems, readItems?, rereadItems]
  | fuel + 1, depth, v :: items, rest, hfit, hfuel => by
      have hv := hfit v List.mem_cons_self
      have hpos := encode_length_pos hv
      rw [encodeItems, List.length_append] at hfuel
      rw [encodeItems, List.append_assoc]
      exact readItems?_cons (read?_encode fuel _ hv (by omega))
        (readItems?_encode fuel rest (fun w hw => hfit w (List.mem_cons_of_mem _ hw)) (by omega))

/-- Entries that fit are read back. -/
theorem readEntries?_encode : ∀ (fuel : Nat) {depth : Nat} {entries : List (Key × Value)}
    (rest : Bytes), (∀ entry ∈ entries, ∃ s, entry.1 = .name s ∧ (utf8 s).length < 2 ^ 32) →
      (∀ entry ∈ entries, Fits depth entry.2) → 3 * (encodeEntries entries).length + 1 ≤ fuel →
        readEntries? fuel depth entries.length (encodeEntries entries ++ rest) =
          some ((rereadEntries entries).map fun entry => (.text entry.1.display, entry.2), rest)
  | 0, _, _, _, _, _, hfuel => by omega
  | fuel + 1, _, [], rest, _, _, _ => by
      simp [encodeEntries, readEntries?, rereadEntries]
  | fuel + 1, depth, (key, v) :: entries, rest, hnames, hfit, hfuel => by
      obtain ⟨s, hs, hshort⟩ := hnames (key, v) List.mem_cons_self
      obtain rfl : key = .name s := hs
      have hpos := writeText_length_pos s
      rw [encodeEntries, List.length_append, List.length_append, writeKey] at hfuel
      obtain ⟨fuel, rfl⟩ : ∃ k, fuel = k + 1 := ⟨fuel - 1, by omega⟩
      rw [encodeEntries, writeKey, List.append_assoc, List.append_assoc]
      exact readEntries?_cons (read?_writeText hshort fuel depth _)
        (read?_encode (fuel + 1) _ (hfit (.name s, v) List.mem_cons_self) (by omega))
        (readEntries?_encode (fuel + 1) rest
          (fun entry he => hnames entry (List.mem_cons_of_mem _ he))
          (fun entry he => hfit entry (List.mem_cons_of_mem _ he)) (by omega))

end

/-- **The binary encoding keeps a value.** -/
theorem decode?_encode {v : Value} (h : Fits maxDepth v) : decode? (encode v) = some (reread v) := by
  have hread := read?_encode (3 * (encode v).length + 3) [] h (Nat.le_add_right _ _)
  rw [List.append_nil] at hread
  rw [decode?, hread]
  rfl

end ProgramGraph.MsgPack
