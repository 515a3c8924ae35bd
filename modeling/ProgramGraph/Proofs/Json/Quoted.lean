import ProgramGraph.Json.Quoted

set_option autoImplicit false

/-! # Quoted texts are read back

What is written between quotes is read as the same text, and reading stops behind the closing
quote, whatever follows it.
-/

namespace ProgramGraph.Json

open ProgramGraph.Text

/-- What a reader sees at the place of a character: an escape by number is a code. -/
def unitOf (c : Char) : Unit16 :=
  if c = '\x08' ∨ c = '\x0c' ∨ c = '\n' ∨ c = '\r' ∨ c = '\t' then .char c
  else if c.toNat < 0x20 then .code c.toNat
  else .char c

theorem hexValue?_hexDigit {n : Nat} (h : n < 16) : hexValue? (hexDigit n) = some n := by
  have hall : ∀ k : Fin 16, hexValue? (hexDigit k) = some k.val := by decide
  exact hall ⟨n, h⟩

/-- A character that stands for itself is read as itself. -/
theorem readUnits?_plain {c : Char} (hquote : c ≠ '"') (hslash : c ≠ '\\')
    (hcontrol : ¬c.toNat < 0x20) (rest : List Char) :
    readUnits? (c :: rest) =
      (readUnits? rest).map fun (units, after) => (.char c :: units, after) := by
  rw [readUnits?.eq_def]
  split
  · rename_i h
    cases h
  · rename_i h
    exact absurd (List.cons.inj h).1 hquote
  · rename_i h
    exact absurd (List.cons.inj h).1 hslash
  · rename_i h
    exact absurd (List.cons.inj h).1 hslash
  · rename_i h
    obtain ⟨rfl, rfl⟩ := List.cons.inj h
    simp [hslash, hcontrol]

/-- An escape by a letter is read as the character that it stands for. -/
theorem readUnits?_letter {letter c : Char} (hu : letter ≠ 'u') (h : unescape? letter = some c)
    (rest : List Char) :
    readUnits? ('\\' :: letter :: rest) =
      (readUnits? rest).map fun (units, after) => (.char c :: units, after) := by
  rw [readUnits?.eq_4 _ _ (by simp [hu])]
  rw [h]
  cases readUnits? rest <;> rfl

/-- An escape by number is read as its number. -/
theorem readUnits?_number {n : Nat} (h : n < 0x20) (rest : List Char) :
    readUnits? ('\\' :: 'u' :: '0' :: '0' :: hexDigit (n / 16) :: hexDigit (n % 16) :: rest) =
      (readUnits? rest).map fun (units, after) => (.code n :: units, after) := by
  rw [readUnits?, hexValue?_hexDigit (by omega), hexValue?_hexDigit (by omega)]
  have hzero : hexValue? '0' = some 0 := rfl
  have hn : 4096 * 0 + 256 * 0 + 16 * (n / 16) + n % 16 = n := by omega
  simp only [hzero, Option.bind_eq_bind, Option.bind_some, hn]
  cases readUnits? rest <;> rfl

/-- One written character is read as one unit. -/
theorem readUnits?_escape (c : Char) (rest : List Char) :
    readUnits? (escape c ++ rest) =
      (readUnits? rest).map fun (units, after) => (unitOf c :: units, after) := by
  unfold escape
  -- Seven characters have letters of their own.
  iterate 7
    split
    · subst c; exact readUnits?_letter (by decide) rfl rest
  split
  · rename_i hcontrol
    have hunit : unitOf c = .code c.toNat := by simp [unitOf, *]
    rw [hunit]
    exact readUnits?_number hcontrol rest
  · rename_i hcontrol
    have hunit : unitOf c = .char c := by simp [unitOf, *]
    rw [hunit]
    exact readUnits?_plain (by assumption) (by assumption) hcontrol rest

theorem readUnits?_escapes (chars rest : List Char) :
    readUnits? (chars.flatMap escape ++ '"' :: rest) = some (chars.map unitOf, rest) := by
  induction chars with
  | nil => rw [List.flatMap_nil, List.nil_append, readUnits?]; rfl
  | cons c chars ih =>
      rw [List.flatMap_cons, List.append_assoc, readUnits?_escape, ih]
      rfl

theorem joinUnits?_map (chars : List Char) : joinUnits? (chars.map unitOf) = some chars := by
  induction chars with
  | nil => rfl
  | cons c chars ih =>
      rw [List.map_cons, unitOf]
      split
      · rw [joinUnits?, ih]; rfl
      · split
        · rename_i hcontrol
          have hhigh : ¬(0xD800 ≤ c.toNat) := by omega
          have hlow : ¬(0xDC00 ≤ c.toNat) := by omega
          rw [joinUnits?.eq_def]
          simp [ih, hhigh, hlow]
        · rw [joinUnits?, ih]; rfl

theorem quote_append (s : String) (rest : List Char) :
    quote s ++ rest = '"' :: (s.toList.flatMap escape ++ '"' :: rest) := by
  simp [quote]

/-- **A quoted text is read back.** -/
theorem readQuoted?_quote (s : String) (rest : List Char) :
    readQuoted? (s.toList.flatMap escape ++ '"' :: rest) = some (some s, rest) := by
  rw [readQuoted?, readUnits?_escapes]
  simp [joinUnits?_map]

end ProgramGraph.Json
