import ProgramGraph.Proofs.Decimal.RoundTrip
import ProgramGraph.Proofs.Query.Readable

set_option autoImplicit false

/-! # Printed queries are rows of pieces

What is printed behind FIND is a row of words, signs and literals with one blank between two of them
(`toList_display`). A piece carries the kind of token that it is meant to be, and in a query that came
from a text each piece is lexed as that token (`IsReadable.isLexed`): a name is still a word, a text is
enclosed in the mark that it does not hold, and numbers are digits. Only floats that are not finite are
written as words, and behind a minus such a word is no token at all.
-/

namespace ProgramGraph.Query

open ProgramGraph.Text

/-! ## The pieces of a query -/

/-- The kind of token that the text of a float is. -/
def floatToken? (written : String) : Option TokenKind :=
  if written = "-inf" then none
  else if written = "inf" ∨ written = "NaN" then some (.identifier written)
  else some (.number written)

/-- The value of a literal as it is printed. -/
def valuePiece : Property → Piece
  | .text s => ⟨(quoted s).toList, some (.text s)⟩
  | .float x => ⟨(Decimal.plain.render x.toFloat).toList, floatToken? (Decimal.plain.render x.toFloat)⟩
  | value => ⟨value.display.toList, some (.number value.display)⟩

/-- A reserved word. -/
def Keyword.piece (k : Keyword) : Piece := ⟨k.word.toList, some (.keyword k)⟩

/-- A word that is not reserved. -/
def namePiece (name : String) : Piece := ⟨name.toList, some (.identifier name)⟩

def Condition.pieces : Condition → List Piece
  | .attribute name op value =>
      [namePiece name, ⟨op.symbol.toList, some (.operator op)⟩, valuePiece value]
  | .related kind target =>
      [Keyword.piece (.relation kind), ⟨(quoted target).toList, some (.text target)⟩]

/-- The pieces of further conditions. -/
def morePieces (more : List (Connective × Condition)) : List Piece :=
  more.flatMap fun (connective, c) => connective.keyword.piece :: c.pieces

/-- The pieces of the kind and the alias. -/
def findPieces (kind : String) (asName : Option String) : List Piece :=
  namePiece kind :: asName.elim [] fun name => [Keyword.piece .as, namePiece name]

/-- The pieces of the conditions behind WHERE. -/
def wherePieces (conditions : Option Conditions) : List Piece :=
  conditions.elim [] fun cs => Keyword.piece .where :: (cs.first.pieces ++ morePieces cs.rest)

/-- The pieces of a count behind its reserved word. -/
def countPieces (keyword : Keyword) (count : Option Nat) : List Piece :=
  count.elim [] fun n => [keyword.piece, ⟨(toString n).toList, some (.number (toString n))⟩]

/-- The pieces of a query behind FIND. -/
def pieces (q : Query) : List Piece :=
  findPieces q.kind q.asName ++ (wherePieces q.conditions ++
    (countPieces .limit q.limit ++ countPieces .offset q.offset))

theorem morePieces_cons (connective : Connective) (c : Condition) (rest : List (Connective × Condition)) :
    morePieces ((connective, c) :: rest) = connective.keyword.piece :: (c.pieces ++ morePieces rest) := rfl

/-! ## What is printed -/

theorem row_nil : row [] = [] := rfl

theorem row_cons (p : Piece) (rest : List Piece) : row (p :: rest) = ' ' :: (p.chars ++ row rest) := rfl

theorem row_append (first second : List Piece) : row (first ++ second) = row first ++ row second :=
  List.flatMap_append

theorem row_condition (c : Condition) : row c.pieces = ' ' :: c.display.toList := by
  rcases c with ⟨name, op, value⟩ | ⟨kind, target⟩
  · cases value <;>
      simp [Condition.pieces, Condition.display, row_cons, row_nil, namePiece, valuePiece, Property.display]
  · simp [Condition.pieces, Condition.display, row_cons, row_nil, Keyword.piece, Keyword.word]

theorem row_conditions (cs : Conditions) :
    row (cs.first.pieces ++ morePieces cs.rest) = ' ' :: cs.display.toList := by
  -- The text that a condition is added to is arbitrary, as it grows from one to the next.
  have hmore : ∀ (more : List (Connective × Condition)) (acc : String),
      (more.foldl (fun acc (connective, c) => acc ++ " " ++ connective.word ++ " " ++ c.display) acc).toList =
        acc.toList ++ row (morePieces more) := by
    intro more
    induction more with
    | nil => exact fun acc => (List.append_nil _).symm
    | cons first rest ih =>
        obtain ⟨connective, c⟩ := first
        intro acc
        have hword : connective.keyword.word = connective.word := by cases connective <;> rfl
        rw [List.foldl_cons, ih, morePieces_cons, row_cons, row_append, row_condition]
        simp [Keyword.piece, hword]
  rw [row_append, row_condition, Conditions.display, hmore]
  rfl

theorem row_findPieces (kind : String) (asName : Option String) :
    "FIND".toList ++ row (findPieces kind asName) =
      ("FIND " ++ kind ++ asName.elim "" (" AS " ++ ·)).toList := by
  cases asName <;> simp [findPieces, row_cons, row_nil, namePiece, Keyword.piece, Keyword.word]

theorem row_wherePieces (conditions : Option Conditions) :
    row (wherePieces conditions) = (conditions.elim "" fun cs => " WHERE " ++ cs.display).toList := by
  cases conditions with
  | none => rfl
  | some cs =>
      rw [wherePieces, Option.elim_some, Option.elim_some, row_cons, row_conditions]
      simp [Keyword.piece, Keyword.word]

theorem row_countPieces (keyword : Keyword) (count : Option Nat) :
    row (countPieces keyword count) =
      (count.elim "" fun n => " " ++ keyword.word ++ " " ++ toString n).toList := by
  cases count <;> simp [countPieces, row_cons, row_nil, Keyword.piece]

/-- **A printed query is a row of pieces.** -/
theorem toList_display (q : Query) : q.display.toList = "FIND".toList ++ row q.pieces := by
  rw [pieces, row_append, row_append, row_append, row_wherePieces, row_countPieces, row_countPieces,
    ← List.append_assoc, row_findPieces, display]
  simp only [String.toList_append, List.append_assoc]
  rfl

/-! ## The pieces are lexed -/

theorem isLexed_keyword (k : Keyword) : k.piece.IsLexed := by
  have hword : IsWord k.word ∧ wordToken k.word = .keyword k := by
    rcases k with _ | _ | _ | _ | _ | _ | kind | _ | _ | _ | _
    case relation =>
      cases kind <;> exact ⟨⟨⟨_, _, rfl, by decide, List.all_eq_true.mp rfl⟩⟩, by decide +kernel⟩
    all_goals exact ⟨⟨⟨_, _, rfl, by decide, List.all_eq_true.mp rfl⟩⟩, by decide +kernel⟩
  have hlexed := hword.1.isLexed
  rwa [hword.2] at hlexed

theorem IsName.isLexed {name : String} (h : IsName name) : (namePiece name).IsLexed := by
  have hlexed := h.toIsWord.isLexed
  rwa [h.token] at hlexed

theorem isLexed_operator (op : Operator) : Piece.IsLexed ⟨op.symbol.toList, some (.operator op)⟩ := by
  cases op with
  | compare comparison => exact isLexed_sign comparison
  | like =>
      have hword : IsWord "LIKE" := ⟨'L', ['I', 'K', 'E'], by decide, by decide, List.all_eq_true.mp rfl⟩
      have hlexed := hword.isLexed
      rwa [show wordToken "LIKE" = .operator .like by decide] at hlexed

theorem areDigits_toDigits (n : Nat) : AreDigits (Nat.toDigits 10 n) :=
  ⟨Nat.toDigits_ne_nil, fun _ hc => Json.isDigit_of_mem hc⟩

theorem isNumeral_int (n : Int) : IsNumeral (toString n).toList := by
  rw [Json.toList_toString_int]
  refine .whole ?_ (areDigits_toDigits _)
  split
  · exact .inr rfl
  · exact .inl rfl

theorem isNumeral_count (n : Nat) : IsNumeral (toString n).toList := by
  have hdigits : (toString n).toList = Nat.toDigits 10 n := by simp
  rw [hdigits]
  exact .whole (.inl rfl) (areDigits_toDigits n)

/-- A finite float is written as a number, the others as words. -/
theorem isNumeral_render {x : Float} (hnumber : x.isNaN = false) (hfinite : x.isInf = false) :
    IsNumeral (Decimal.plain.render x).toList := by
  have hsign : (if x.toBits >>> 63 = 1 then ['-'] else []) = ([] : List Char) ∨
      (if x.toBits >>> 63 = 1 then ['-'] else []) = ['-'] := by
    split
    · exact .inr rfl
    · exact .inl rfl
  rw [Decimal.toList_render hnumber hfinite]
  rcases Decimal.layMagnitude_cases (Decimal.exponentField_ne hnumber hfinite) with
    hwhole | ⟨⟨whole, fraction, hlaid⟩, -⟩
  · exact .whole hsign hwhole
  · rw [hlaid.parts, ← List.append_assoc]
    exact .pointed hsign ⟨hlaid.whole_ne_nil, fun c hc => hlaid.digits c (List.mem_append_left _ hc)⟩
      ⟨hlaid.fraction_ne_nil, fun c hc => hlaid.digits c (List.mem_append_right _ hc)⟩

theorem IsNumeral.ne_word {w : List Char} (h : IsNumeral w) :
    w ≠ "-inf".toList ∧ w ≠ "inf".toList ∧ w ≠ "NaN".toList := by
  have hchars : ∀ c ∈ w, c.isDigit = true ∨ c = '-' ∨ c = '.' := by
    have hsigns : ∀ {sign : List Char}, sign = [] ∨ sign = ['-'] → ∀ c ∈ sign, c = '-' := by
      rintro sign (rfl | rfl) c hc
      · cases hc
      · exact List.mem_singleton.mp hc
    intro c hc
    cases h with
    | whole hsign hwhole =>
        rcases List.mem_append.mp hc with hc | hc
        · exact .inr (.inl (hsigns hsign c hc))
        · exact .inl (hwhole.2 c hc)
    | pointed hsign hwhole hfraction =>
        simp only [List.mem_append, List.mem_cons] at hc
        rcases hc with (hc | hc) | rfl | hc
        · exact .inr (.inl (hsigns hsign c hc))
        · exact .inl (hwhole.2 c hc)
        · exact .inr (.inr rfl)
        · exact .inl (hfraction.2 c hc)
  -- Each of the words has a letter in it.
  refine ⟨?_, ?_, ?_⟩
  · rintro rfl
    exact absurd (hchars 'i' (by decide)) (by decide)
  · rintro rfl
    exact absurd (hchars 'i' (by decide)) (by decide)
  · rintro rfl
    exact absurd (hchars 'N' (by decide)) (by decide)

theorem floatToken?_of_isNumeral {written : String} (h : IsNumeral written.toList) :
    floatToken? written = some (.number written) := by
  obtain ⟨hnegative, hinfinity, hnan⟩ := h.ne_word
  rw [floatToken?, if_neg, if_neg]
  · rintro (rfl | rfl)
    · exact hinfinity rfl
    · exact hnan rfl
  · rintro rfl
    exact hnegative rfl

theorem number_of_floatToken? {written token : String} (h : floatToken? written = some (.number token)) :
    token = written := by
  unfold floatToken? at h
  split at h
  · cases h
  · split at h
    · cases h
    · exact (TokenKind.number.inj (Option.some.inj h)).symm

theorem isLexed_float (x : Float) :
    Piece.IsLexed ⟨(Decimal.plain.render x).toList, floatToken? (Decimal.plain.render x)⟩ := by
  -- Two of the texts without digits are read as names, and the third begins with a minus.
  rcases Decimal.render_cases x with hword | hword | hword | ⟨hnumber, hfinite⟩
  · have hname : IsName "NaN" :=
      ⟨⟨'N', ['a', 'N'], by decide, by decide, List.all_eq_true.mp rfl⟩, by decide +kernel⟩
    rw [hword]
    exact hname.isLexed
  · have hname : IsName "inf" :=
      ⟨⟨'i', ['n', 'f'], by decide, by decide, List.all_eq_true.mp rfl⟩, by decide +kernel⟩
    rw [hword]
    exact hname.isLexed
  · rw [hword]
    exact isLexed_minus (by decide) ['n', 'f']
  · have hnumeral := isNumeral_render hnumber hfinite
    have hlexed := hnumeral.isLexed
    rw [floatToken?_of_isNumeral hnumeral]
    rwa [String.ofList_toList] at hlexed

theorem isLexed_value {value : Property} (h : IsLiteral value) : (valuePiece value).IsLexed := by
  cases value with
  | text s => exact isLexed_quoted h
  | int n =>
      have hlexed := (isNumeral_int n.toInt).isLexed
      rwa [String.ofList_toList] at hlexed
  | float x => exact isLexed_float x.toFloat
  | null | bool | texts => cases h

theorem Condition.IsReadable.isLexed {c : Condition} (h : c.IsReadable) : ∀ p ∈ c.pieces, p.IsLexed := by
  intro p hp
  rcases c with ⟨name, op, value⟩ | ⟨kind, target⟩ <;>
    simp only [Condition.pieces, List.mem_cons, List.not_mem_nil, or_false] at hp
  · rcases hp with rfl | rfl | rfl
    · exact h.1.isLexed
    · exact isLexed_operator op
    · exact isLexed_value h.2
  · rcases hp with rfl | rfl
    · exact isLexed_keyword _
    · exact isLexed_quoted h

theorem isLexed_morePieces {more : List (Connective × Condition)}
    (h : ∀ c ∈ more.map Prod.snd, c.IsReadable) : ∀ p ∈ morePieces more, p.IsLexed := by
  intro p hp
  obtain ⟨⟨connective, c⟩, hc, hp⟩ := List.mem_flatMap.mp hp
  rcases List.mem_cons.mp hp with rfl | hp
  · exact isLexed_keyword _
  · exact (h c (List.mem_map_of_mem hc)).isLexed p hp

theorem isLexed_findPieces {kind : String} {asName : Option String} (hkind : IsName kind)
    (hasName : ∀ name ∈ asName, IsName name) : ∀ p ∈ findPieces kind asName, p.IsLexed := by
  intro p hp
  rcases List.mem_cons.mp hp with rfl | hp
  · exact hkind.isLexed
  · cases asName with
    | none => cases hp
    | some name =>
        rcases List.mem_pair.mp hp with rfl | rfl
        · exact isLexed_keyword .as
        · exact (hasName name rfl).isLexed

theorem isLexed_wherePieces {conditions : Option Conditions}
    (h : ∀ c ∈ conditions.elim [] Conditions.toList, c.IsReadable) :
    ∀ p ∈ wherePieces conditions, p.IsLexed := by
  intro p hp
  cases conditions with
  | none => cases hp
  | some cs =>
      rcases List.mem_cons.mp hp with rfl | hp
      · exact isLexed_keyword .where
      · rcases List.mem_append.mp hp with hp | hp
        · exact (h cs.first List.mem_cons_self).isLexed p hp
        · exact isLexed_morePieces (fun c hc => h c (List.mem_cons_of_mem _ hc)) p hp

theorem isLexed_countPieces (keyword : Keyword) (count : Option Nat) :
    ∀ p ∈ countPieces keyword count, p.IsLexed := by
  intro p hp
  cases count with
  | none => cases hp
  | some n =>
      rcases List.mem_pair.mp hp with rfl | rfl
      · exact isLexed_keyword keyword
      · have hlexed := (isNumeral_count n).isLexed
        rwa [String.ofList_toList] at hlexed

/-- **Every piece of a readable query is lexed on its own.** -/
theorem IsReadable.isLexed {q : Query} (h : q.IsReadable) : ∀ p ∈ q.pieces, p.IsLexed := by
  intro p hp
  simp only [pieces, List.mem_append] at hp
  rcases hp with hfind | hwhere | hlimit | hoffset
  · exact isLexed_findPieces h.kind h.asName p hfind
  · exact isLexed_wherePieces h.conditions p hwhere
  · exact isLexed_countPieces .limit q.limit p hlimit
  · exact isLexed_countPieces .offset q.offset p hoffset

end ProgramGraph.Query
