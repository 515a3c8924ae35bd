import Mathlib
import ProgramGraph.Proofs.Json.Number
import ProgramGraph.Proofs.Query.Grammar

set_option autoImplicit false

/-! # Pieces that are lexed as they are written

A printed query is a row of pieces with one blank between them. A piece is lexed on its own if
the lexer, started in front of it, stops at the blank behind it (`Piece.IsLexed`). Then the tokens
of a row are the tokens of its pieces (`kinds_row`), and a piece that is no token spoils the row.
-/

namespace ProgramGraph.Query

open ProgramGraph.Text

/-! ## Characters -/

/-- A fact about the first characters is a fact about every character that words may start with. -/
theorem forall_startsWord {p : Char → Prop}
    (h : ∀ n : Fin 128, startsWord (Char.ofNat n) = true → p (Char.ofNat n)) {c : Char}
    (hc : startsWord c = true) : p c := by
  have hsmall : c.toNat < 128 := by
    simp only [startsWord, Char.isAlpha, Char.isUpper, Char.isLower, Bool.or_eq_true, Bool.and_eq_true,
      decide_eq_true_eq] at hc
    rcases hc with ((⟨-, hc⟩ | ⟨-, hc⟩) | rfl)
    · exact Nat.lt_of_le_of_lt hc (by decide)
    · exact Nat.lt_of_le_of_lt hc (by decide)
    · decide
  have hchar : Char.ofNat c.toNat = c := Char.ofNat_toNat c
  rw [← hchar] at hc ⊢
  exact h ⟨c.toNat, hsmall⟩ hc

/-- No other alternative of the lexer starts as words do. -/
theorem not_other_of_startsWord {c : Char} (h : startsWord c = true) :
    (c ≠ '\'' ∧ c ≠ '"') ∧ c ≠ '-' ∧ isDecimalDigit c = false ∧
      (c ≠ '>' ∧ c ≠ '<' ∧ c ≠ '!' ∧ c ≠ '=') ∧ isBlank c = false :=
  forall_startsWord (p := fun c => (c ≠ '\'' ∧ c ≠ '"') ∧ c ≠ '-' ∧ isDecimalDigit c = false ∧
    (c ≠ '>' ∧ c ≠ '<' ∧ c ≠ '!' ∧ c ≠ '=') ∧ isBlank c = false) (by decide +kernel) h

theorem isDecimalDigit_of_isDigit {c : Char} (h : c.isDigit = true) : isDecimalDigit c = true := by
  simp only [Char.isDigit, Bool.and_eq_true, decide_eq_true_eq] at h
  refine List.any_eq_true.mpr ⟨(0x30, 0x39), List.mem_cons_self, ?_⟩
  rw [Bool.and_eq_true, decide_eq_true_eq, decide_eq_true_eq]
  exact h

theorem not_other_of_isDigit {c : Char} (h : c.isDigit = true) :
    c ≠ '\'' ∧ c ≠ '"' ∧ isBlank c = false := by
  have hdigit : ∀ n : Fin 10, Char.ofNat (48 + n) ≠ '\'' ∧ Char.ofNat (48 + n) ≠ '"' ∧
      isBlank (Char.ofNat (48 + n)) = false := by decide
  simp only [Char.isDigit, Bool.and_eq_true, decide_eq_true_eq] at h
  have hlow : 48 ≤ c.toNat := h.1
  have hhigh : c.toNat ≤ 57 := h.2
  have hchar : Char.ofNat (48 + (c.toNat - 48)) = c := by
    rw [Nat.add_sub_cancel' hlow, Char.ofNat_toNat]
  have hc := hdigit ⟨c.toNat - 48, by omega⟩
  rwa [hchar] at hc

/-- A point at the front and the digits behind it, if there are any. -/
def fractionAt : List Char → List Char
  | '.' :: more =>
      if (more.takeWhile isDecimalDigit).isEmpty then [] else '.' :: more.takeWhile isDecimalDigit
  | _ => []

/-- The digits at the front, and a point with more digits if digits follow it. -/
def unsigned? (chars : List Char) : Option (List Char) :=
  if (chars.takeWhile isDecimalDigit).isEmpty then none
  else some (chars.takeWhile isDecimalDigit ++ fractionAt (chars.dropWhile isDecimalDigit))

/-- A number is a sign that may be left out, and what can stand behind it. -/
theorem number?_cons (c : Char) (rest : List Char) :
    number? (c :: rest) = if c = '-' then (unsigned? rest).map ('-' :: ·) else unsigned? (c :: rest) := by
  -- A fraction is taken only if a digit stands behind the point.
  have hfraction : ∀ front rest : List Char,
      (match rest with
        | '.' :: more =>
            if (more.takeWhile isDecimalDigit).isEmpty then some front
            else some (front ++ '.' :: more.takeWhile isDecimalDigit)
        | _ => some front) = some (front ++ fractionAt rest) := by
    intro front rest
    unfold fractionAt
    split
    · split <;> simp
    · simp
  by_cases hminus : c = '-'
  · subst hminus
    rw [if_pos rfl, unsigned?, number?]
    simp only
    split
    · rfl
    · exact hfraction (['-'] ++ rest.takeWhile isDecimalDigit) (rest.dropWhile isDecimalDigit)
  · rw [if_neg hminus]
    unfold number?
    split
    rename_i sign unsigned heq
    obtain ⟨rfl, rfl⟩ : sign = [] ∧ unsigned = c :: rest := by
      split at heq
      · rename_i hcons
        exact absurd (List.cons.inj hcons).1 hminus
      · exact ⟨(Prod.mk.inj heq).1.symm, (Prod.mk.inj heq).2.symm⟩
    simp only
    rw [unsigned?]
    split
    · rfl
    · exact hfraction ([] ++ (c :: rest).takeWhile isDecimalDigit) ((c :: rest).dropWhile isDecimalDigit)

theorem number?_eq_none {c : Char} (hminus : c ≠ '-') (hdigit : isDecimalDigit c = false)
    (rest : List Char) : number? (c :: rest) = none := by
  rw [number?_cons, if_neg hminus, unsigned?]
  simp [hdigit]

theorem sign?_eq_none {c : Char} (h : c ≠ '>' ∧ c ≠ '<' ∧ c ≠ '!' ∧ c ≠ '=') (rest : List Char) :
    sign? (c :: rest) = none := by
  obtain ⟨hgreater, hless, hbang, hequal⟩ := h
  unfold sign?
  split <;> simp_all

/-! ## Rows of pieces -/

/-- The kinds of the tokens of a text, where `position` bytes are read already. -/
def kinds (position : Nat) (chars : List Char) : Option (List TokenKind) :=
  (tokensFrom position chars).toOption.map (List.map Token.kind)

/-- A written piece of a query, and the kind of token that it is, if it is one. -/
structure Piece where
  chars : List Char
  kind? : Option TokenKind

/-- What may follow a piece: nothing, or a blank. -/
def EndsPiece (rest : List Char) : Prop := ∀ c ∈ rest.head?, c = ' '

theorem endsPiece_nil : EndsPiece [] := fun _ h => by cases h

theorem endsPiece_blank (rest : List Char) : EndsPiece (' ' :: rest) := fun _ h => (Option.some.inj h).symm

/-- The lexer, started in front of the piece, stops behind it. It finds no token at all if the piece
is none. -/
structure Piece.IsLexed (p : Piece) : Prop where
  starts : ∃ c more, p.chars = c :: more ∧ isBlank c = false ∧ ∀ rest, EndsPiece rest →
    lexeme c (more ++ rest) = p.kind?.elim .mismatch (.token · more.length)

/-- Pieces, each behind a blank. -/
def row (pieces : List Piece) : List Char := pieces.flatMap fun p => ' ' :: p.chars

theorem endsPiece_row (pieces : List Piece) : EndsPiece (row pieces) := by
  cases pieces with
  | nil => exact endsPiece_nil
  | cons p rest => exact endsPiece_blank _

theorem kinds_nil (position : Nat) : kinds position [] = some [] := by
  rw [kinds, tokensFrom]
  rfl

/-- A piece gives its token, wherever it stands. -/
theorem Piece.IsLexed.kinds_append {p : Piece} (h : p.IsLexed) {rest : List Char} (hrest : EndsPiece rest)
    (position : Nat) :
    ∃ after, kinds position (p.chars ++ rest) =
      p.kind?.bind fun kind => (kinds after rest).map (kind :: ·) := by
  obtain ⟨c, more, hchars, -, hlexeme⟩ := h.starts
  rw [hchars, List.cons_append]
  have hlexeme := hlexeme rest hrest
  cases hkind : p.kind? with
  | none =>
      rw [hkind] at hlexeme
      -- The lexer ends here, so it does not matter where it would go on.
      refine ⟨0, ?_⟩
      rw [kinds, tokensFrom, hlexeme]
      rfl
  | some kind =>
      rw [hkind] at hlexeme
      refine ⟨position + byteLength (c :: more), ?_⟩
      rw [kinds, tokensFrom, hlexeme]
      simp only [Option.elim, List.take_left, List.drop_left, Option.bind_some, kinds]
      cases tokensFrom (position + byteLength (c :: more)) rest <;> rfl

/-- A blank in front of a piece gives no token. -/
theorem Piece.IsLexed.kinds_blank {p : Piece} (h : p.IsLexed) (rest : List Char) (position : Nat) :
    ∃ after, kinds position (' ' :: (p.chars ++ rest)) = kinds after (p.chars ++ rest) := by
  obtain ⟨c, more, hchars, hblank, -⟩ := h.starts
  have hlexeme : lexeme ' ' (p.chars ++ rest) = .blank 0 := by
    rw [hchars, List.cons_append, lexeme, number?_eq_none (by decide) (by decide),
      sign?_eq_none (by decide)]
    simp [hblank, startsWord, (by decide : isBlank ' ' = true)]
  refine ⟨position + byteLength [' '], ?_⟩
  rw [kinds, tokensFrom, hlexeme]
  rfl

/-- **The tokens of a row** are those of its pieces. -/
theorem kinds_row {pieces : List Piece} (h : ∀ p ∈ pieces, p.IsLexed) (position : Nat) :
    kinds position (row pieces) = pieces.mapM Piece.kind? := by
  induction pieces generalizing position with
  | nil => exact kinds_nil position
  | cons p rest ih =>
      have hp := h p List.mem_cons_self
      have hchars : row (p :: rest) = ' ' :: (p.chars ++ row rest) := rfl
      obtain ⟨start, hblank⟩ := hp.kinds_blank (row rest) position
      obtain ⟨after, hpiece⟩ := hp.kinds_append (endsPiece_row rest) start
      rw [hchars, hblank, hpiece, ih fun q hq => h q (List.mem_cons_of_mem p hq), List.mapM_cons]
      cases p.kind? <;> cases rest.mapM Piece.kind? <;> rfl

/-! ## Single pieces -/

theorem takeWhile_append_blank {test : Char → Bool} {chars rest : List Char} (h : ∀ c ∈ chars, test c = true)
    (hblank : test ' ' = false) (hrest : EndsPiece rest) : (chars ++ rest).takeWhile test = chars := by
  rw [List.takeWhile_append_of_pos h]
  cases rest with
  | nil => simp
  | cons c rest =>
      obtain rfl := hrest c rfl
      simp [hblank]

/-- A word. -/
structure IsWord (word : String) : Prop where
  starts : ∃ c more, word.toList = c :: more ∧ startsWord c = true ∧ ∀ d ∈ more, continuesWord d = true

theorem IsWord.isLexed {word : String} (h : IsWord word) :
    Piece.IsLexed ⟨word.toList, some (wordToken word)⟩ := by
  obtain ⟨c, more, hword, hc, hmore⟩ := h.starts
  obtain ⟨⟨hsingle, hdouble⟩, hminus, hdigit, hsigns, hblank⟩ := not_other_of_startsWord hc
  refine ⟨c, more, hword, hblank, fun rest hrest => ?_⟩
  have hback : String.ofList (c :: more) = word := by rw [← hword, String.ofList_toList]
  rw [lexeme, number?_eq_none hminus hdigit, sign?_eq_none hsigns,
    takeWhile_append_blank hmore (by decide) hrest]
  simp only [hsingle, hdouble, hc, hback, decide_false, Bool.or_self, Bool.false_eq_true, if_false, if_true]
  rfl

/-- A text in quotes, which must not hold both of them. -/
theorem isLexed_quoted {s : String} (h : '\'' ∈ s.toList → '"' ∉ s.toList) :
    Piece.IsLexed ⟨(quoted s).toList, some (.text s)⟩ := by
  -- The mark is one that the text does not hold, so the body ends where the text does.
  have hmark : ∃ mark, (mark = '\'' ∨ mark = '"') ∧ mark ∉ s.toList ∧
      (quoted s).toList = mark :: (s.toList ++ [mark]) := by
    unfold quoted
    split
    · rename_i hsingle
      exact ⟨'"', .inr rfl, h (List.contains_iff_mem.mp hsingle), by simp⟩
    · rename_i hsingle
      exact ⟨'\'', .inl rfl, fun hmem => hsingle (List.contains_iff_mem.mpr hmem), by simp⟩
  obtain ⟨mark, hquote, hnot, hchars⟩ := hmark
  refine ⟨mark, s.toList ++ [mark], hchars, by rcases hquote with rfl | rfl <;> decide, fun rest _ => ?_⟩
  have hbody : body? mark (s.toList ++ [mark] ++ rest) = some s.toList := by
    have htake : (s.toList ++ [mark] ++ rest).takeWhile (· != mark) = s.toList := by
      rw [List.append_assoc, List.takeWhile_append_of_pos]
      · simp
      · intro c hc
        exact bne_iff_ne.mpr fun heq => hnot (heq ▸ hc)
    rw [body?, htake, if_pos (by simp)]
  have hquote : (decide (mark = '\'') || decide (mark = '"')) = true := by simpa using hquote
  rw [lexeme, if_pos hquote, hbody, List.length_append]
  simp

theorem isLexed_sign (op : Comparison) :
    Piece.IsLexed ⟨op.symbol.toList, some (.operator (.compare op))⟩ := by
  have hlexeme : ∀ (c : Char) (rest : List Char) (length : Nat),
      (c = '>' ∨ c = '<' ∨ c = '!' ∨ c = '=') → sign? (c :: rest) = some (op, length + 1) →
        lexeme c rest = .token (.operator (.compare op)) length := by
    intro c rest length hc hsign
    have hnumber : number? (c :: rest) = none := by
      rcases hc with rfl | rfl | rfl | rfl <;> exact number?_eq_none (by decide) (by decide) rest
    rw [lexeme, hnumber, hsign]
    rcases hc with rfl | rfl | rfl | rfl <;> rfl
  -- A sign of one character could be the front of a longer one, were it not for the blank.
  have hshort : ∀ (c : Char) (rest : List Char), EndsPiece rest →
      (c = '>' ∨ c = '<' ∨ c = '=') → sign? (c :: rest) = sign? [c] := by
    intro c rest hrest hc
    cases rest with
    | nil => rfl
    | cons d rest =>
        obtain rfl := hrest d rfl
        rcases hc with rfl | rfl | rfl <;> rfl
  cases op with
  | ge => exact ⟨'>', ['='], rfl, by decide, fun rest _ => hlexeme _ _ 1 (by simp) rfl⟩
  | le => exact ⟨'<', ['='], rfl, by decide, fun rest _ => hlexeme _ _ 1 (by simp) rfl⟩
  | ne => exact ⟨'!', ['='], rfl, by decide, fun rest _ => hlexeme _ _ 1 (by simp) rfl⟩
  | gt => exact ⟨'>', [], rfl, by decide, fun rest hrest => hlexeme _ _ 0 (by simp)
      (hshort _ _ hrest (by simp))⟩
  | lt => exact ⟨'<', [], rfl, by decide, fun rest hrest => hlexeme _ _ 0 (by simp)
      (hshort _ _ hrest (by simp))⟩
  | eq => exact ⟨'=', [], rfl, by decide, fun rest hrest => hlexeme _ _ 0 (by simp)
      (hshort _ _ hrest (by simp))⟩

/-- A written number: digits behind an optional minus, and perhaps a point with more digits. -/
inductive IsNumeral : List Char → Prop where
  | whole {sign whole : List Char} (hsign : sign = [] ∨ sign = ['-']) (hwhole : AreDigits whole) :
      IsNumeral (sign ++ whole)
  | pointed {sign whole fraction : List Char} (hsign : sign = [] ∨ sign = ['-']) (hwhole : AreDigits whole)
      (hfraction : AreDigits fraction) : IsNumeral (sign ++ whole ++ '.' :: fraction)

theorem AreDigits.decimal {digits : List Char} (h : AreDigits digits) :
    ∀ c ∈ digits, isDecimalDigit c = true := fun c hc => isDecimalDigit_of_isDigit (h.2 c hc)

/-- The lexer splits a sign and digits from what follows them. -/
theorem number?_digits {sign whole rest : List Char} (hsign : sign = [] ∨ sign = ['-'])
    (hwhole : AreDigits whole) (hrest : ∀ c ∈ rest.head?, isDecimalDigit c = false) :
    number? (sign ++ (whole ++ rest)) = some (sign ++ whole ++ fractionAt rest) := by
  have hnone : rest.takeWhile isDecimalDigit = [] ∧ rest.dropWhile isDecimalDigit = rest := by
    cases rest with
    | nil => exact ⟨rfl, rfl⟩
    | cons c rest => simp [hrest c rfl]
  have hunsigned : unsigned? (whole ++ rest) = some (whole ++ fractionAt rest) := by
    rw [unsigned?, List.takeWhile_append_of_pos hwhole.decimal, List.dropWhile_append_of_pos hwhole.decimal, hnone.1,
      hnone.2, List.append_nil, if_neg (by simpa using hwhole.1)]
  rcases hsign with rfl | rfl
  · obtain ⟨c, digits, rfl⟩ := List.exists_cons_of_ne_nil hwhole.1
    have hminus : c ≠ '-' := fun hc => hwhole.ne_minus (congrArg (· :: digits) hc)
    exact (number?_cons c _).trans ((if_neg hminus).trans hunsigned)
  · rw [List.singleton_append, number?_cons, if_pos rfl, hunsigned]
    simp

theorem number?_append {w rest : List Char} (h : IsNumeral w) (hrest : EndsPiece rest) :
    number? (w ++ rest) = some w := by
  cases h with
  | whole hsign hwhole =>
      -- The blank that ends a piece is no point, so no fraction begins there.
      have hnone : fractionAt rest = [] := by
        cases rest with
        | nil => rfl
        | cons c rest =>
            obtain rfl := hrest c rfl
            rfl
      rw [List.append_assoc, number?_digits hsign hwhole fun c hc => hrest c hc ▸ by decide, hnone,
        List.append_nil]
  | @pointed sign whole fraction hsign hwhole hfraction =>
      have htake := takeWhile_append_blank hfraction.decimal (by decide) hrest
      have hempty : fraction.isEmpty = false := by simpa using hfraction.1
      have hpoint : ∀ c ∈ ('.' :: (fraction ++ rest)).head?, isDecimalDigit c = false := by
        rintro c hc
        obtain rfl := Option.some.inj hc
        decide
      rw [List.append_assoc, List.append_assoc, List.cons_append, number?_digits hsign hwhole hpoint,
        fractionAt, htake, hempty]
      simp

theorem IsNumeral.isLexed {w : List Char} (h : IsNumeral w) :
    Piece.IsLexed ⟨w, some (.number (String.ofList w))⟩ := by
  have hdigits : ∀ {digits : List Char}, AreDigits digits → ∃ c more, digits = c :: more ∧ c.isDigit = true := by
    rintro (_ | ⟨c, more⟩) hall
    · exact absurd rfl hall.1
    · exact ⟨c, more, rfl, hall.2 c List.mem_cons_self⟩
  have hstart : ∃ c more, w = c :: more ∧ (c = '-' ∨ c.isDigit = true) := by
    cases h with
    | whole hsign hwhole | pointed hsign hwhole _ =>
        obtain ⟨c, more, rfl, hc⟩ := hdigits hwhole
        rcases hsign with rfl | rfl
        · exact ⟨c, _, rfl, .inr hc⟩
        · exact ⟨'-', _, rfl, .inl rfl⟩
  obtain ⟨c, more, rfl, hc⟩ := hstart
  -- What begins a number is no quote and no blank, so the rules before that of numbers do not apply.
  have hother : c ≠ '\'' ∧ c ≠ '"' ∧ isBlank c = false := by
    rcases hc with rfl | hc
    · decide
    · exact not_other_of_isDigit hc
  refine ⟨c, more, rfl, hother.2.2, fun rest hrest => ?_⟩
  have hnumber := number?_append h hrest
  rw [List.cons_append] at hnumber
  rw [lexeme, hnumber]
  simp [hother]

/-- A minus in front of something else than a digit is no token. -/
theorem isLexed_minus {c : Char} (hc : isDecimalDigit c = false) (more : List Char) :
    Piece.IsLexed ⟨'-' :: c :: more, none⟩ := by
  refine ⟨'-', c :: more, rfl, by decide, fun rest _ => ?_⟩
  have hnumber : number? ('-' :: c :: (more ++ rest)) = none := by
    simp [number?, hc]
  rw [lexeme, List.cons_append, hnumber, sign?_eq_none (by decide)]
  simp [startsWord, (by decide : isBlank '-' = false)]

end ProgramGraph.Query
