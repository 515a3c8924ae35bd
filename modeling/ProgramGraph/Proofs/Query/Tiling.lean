import ProgramGraph.Proofs.Query.Pattern

set_option autoImplicit false

/-! # Tokens tile the text of a query

A text is cut into tiles: each is the match of the leftmost alternative of the pattern where the tile
before it ends. Some alternative matches in front of every character, so the tiles cover the text up to
its end, or up to the first place where nothing but the last alternative matches, and there the text is
refused (`tokensFrom_cut`). A tile gives a token at the byte where it starts, or is a run of blanks. No
tile is empty, so the tokens stand one behind the other, and a tile ends at the edge of a character.
-/

namespace ProgramGraph.Query

open ProgramGraph.Text

/-! ## Bytes -/

theorem byteLength_append (front rest : List Char) :
    byteLength (front ++ rest) = byteLength front + byteLength rest := by
  induction front with
  | nil => exact (Nat.zero_add _).symm
  | cons c front ih =>
      calc c.utf8Size + byteLength (front ++ rest)
          = c.utf8Size + (byteLength front + byteLength rest) := by rw [ih]
        _ = c.utf8Size + byteLength front + byteLength rest := (Nat.add_assoc ..).symm

theorem byteLength_pos {chars : List Char} (h : chars ≠ []) : 0 < byteLength chars := by
  cases chars with
  | nil => exact absurd rfl h
  | cons c rest => exact Nat.add_pos_left c.utf8Size_pos _

theorem utf8ByteSize_ofList (chars : List Char) : (String.ofList chars).utf8ByteSize = byteLength chars := by
  rw [String.utf8ByteSize_ofList]
  induction chars with
  | nil => rfl
  | cons c rest ih => rw [String.utf8Len_cons, ih, Nat.add_comm]; rfl

/-- The bytes of the first characters end at the edge of a character. -/
theorem isValid_byteLength {text : String} {front rest : List Char} (h : text.toList = front ++ rest) :
    String.Pos.Raw.IsValid text ⟨byteLength front⟩ := by
  refine String.Pos.Raw.isValid_iff_exists_append.mpr ⟨String.ofList front, String.ofList rest, ?_, ?_⟩
  · rw [← String.ofList_append, ← h, String.ofList_toList]
  · rw [← utf8ByteSize_ofList]
    rfl

/-! ## Tiles -/

/-- A piece of a text with the alternative that matches it. -/
structure Tile where
  group : Group
  span : List Char

namespace Tile

/-- The kind of the token that comes of the tile, if one does. -/
def kind? (t : Tile) : Option TokenKind := t.group.kind? t.span

/-- The characters of the tiles, in their order. -/
def spans (tiles : List Tile) : List Char := tiles.flatMap Tile.span

/-- In front of `rest`, each tile is the match of the leftmost alternative where the tile before it ends,
and this is not the alternative that stands for anything else. -/
def IsCut : List Tile → List Char → Prop
  | [], _ => True
  | t :: more, rest =>
      alternative? (t.span ++ (spans more ++ rest)) = some (t.group, t.span.length) ∧
        t.group ≠ .mismatch ∧ IsCut more rest

/-- The tokens of the tiles, where `position` bytes stand in front of them. -/
def tokens (position : Nat) : List Tile → List Token
  | [] => []
  | t :: more => (t.kind?.map (⟨·, position⟩)).toList ++ tokens (position + byteLength t.span) more

theorem spans_cons (t : Tile) (tiles : List Tile) : spans (t :: tiles) = t.span ++ spans tiles := rfl

theorem spans_append (before after : List Tile) : spans (before ++ after) = spans before ++ spans after :=
  List.flatMap_append

/-- A tile has some characters, and if no token comes of it, they are blanks. -/
theorem of_alternative {t : Tile} {rest : List Char}
    (h : alternative? (t.span ++ rest) = some (t.group, t.span.length)) (hgroup : t.group ≠ .mismatch) :
    t.span ≠ [] ∧ (t.kind? = none → t.group = .blank ∧ ∀ c ∈ t.span, isBlank c = true) := by
  obtain ⟨group, span⟩ := t
  cases hchars : span ++ rest with
  | nil =>
      rw [hchars] at h
      cases h
  | cons c after =>
      rw [hchars] at h
      have htake : ∀ more, span.length = more + 1 → c :: after.take more = span := fun more hmore => by
        rw [← List.take_succ_cons, ← hchars, ← hmore, List.take_left]
      have hnil : ∀ more, span.length = more + 1 → span ≠ [] := fun more hmore hnil => by
        rw [hnil] at hmore
        cases hmore
      generalize hlexeme : lexeme c after = found
      -- The lexer finds what the leftmost alternative matches, so both have the same length.
      cases hlexeme ▸ finds_lexeme c after with
      | token hmore hfirst hkind =>
          obtain ⟨rfl, hlength⟩ := Prod.mk.inj (Option.some.inj (h.symm.trans hfirst))
          rw [htake _ hlength] at hkind
          exact ⟨hnil _ hlength, fun hnone => by rw [kind?, hkind] at hnone; cases hnone⟩
      | blank hmore hfirst hall =>
          obtain ⟨rfl, hlength⟩ := Prod.mk.inj (Option.some.inj (h.symm.trans hfirst))
          rw [htake _ hlength] at hall
          exact ⟨hnil _ hlength, fun _ => ⟨rfl, hall⟩⟩
      | mismatch hfirst =>
          exact absurd (Prod.mk.inj (Option.some.inj (h.symm.trans hfirst))).1 hgroup

theorem IsCut.forall_mem {tiles : List Tile} {rest : List Char} (h : IsCut tiles rest) :
    ∀ t ∈ tiles, t.span ≠ [] ∧ (t.kind? = none → t.group = .blank ∧ ∀ c ∈ t.span, isBlank c = true) := by
  induction tiles with
  | nil => exact fun t ht => nomatch ht
  | cons t more ih =>
      obtain ⟨hfirst, hgroup, hmore⟩ := h
      exact List.forall_mem_cons.mpr ⟨of_alternative hfirst hgroup, ih hmore⟩

/-! ## Where tokens stand -/

/-- A token stands where its tile starts. -/
theorem exists_of_mem_tokens {position : Nat} {tiles : List Tile} {token : Token}
    (h : token ∈ tokens position tiles) :
    ∃ before t after, tiles = before ++ t :: after ∧ t.kind? = some token.kind ∧
      token.position = position + byteLength (spans before) := by
  induction tiles generalizing position with
  | nil => cases h
  | cons t more ih =>
      rcases List.mem_append.mp h with h | h
      · obtain ⟨kind, hkind, rfl⟩ := Option.map_eq_some_iff.mp (Option.mem_toList.mp h)
        exact ⟨[], t, more, rfl, hkind, rfl⟩
      · obtain ⟨before, t', after, rfl, hkind, hposition⟩ := ih h
        refine ⟨t :: before, t', after, rfl, hkind, ?_⟩
        rw [hposition, spans_cons, byteLength_append, Nat.add_assoc]

theorem lt_of_mem_tokens {position : Nat} {tiles : List Tile} (hspans : ∀ t ∈ tiles, t.span ≠ [])
    {token : Token} (h : token ∈ tokens position tiles) :
    token.position < position + byteLength (spans tiles) := by
  obtain ⟨before, t, after, rfl, -, hposition⟩ := exists_of_mem_tokens h
  have hpos := byteLength_pos (hspans t (List.mem_append_right before List.mem_cons_self))
  rw [hposition, spans_append, spans_cons, byteLength_append, byteLength_append]
  omega

/-- The tokens stand one behind the other. -/
theorem pairwise_tokens {tiles : List Tile} (hspans : ∀ t ∈ tiles, t.span ≠ []) (position : Nat) :
    (tokens position tiles).Pairwise fun a b => a.position < b.position := by
  induction tiles generalizing position with
  | nil => exact .nil
  | cons t more ih =>
      obtain ⟨ht, hmore⟩ := List.forall_mem_cons.mp hspans
      refine List.pairwise_append.mpr ⟨?_, ih hmore _, fun a ha b hb => ?_⟩
      · cases t.kind? <;> simp
      · obtain ⟨kind, -, rfl⟩ := Option.map_eq_some_iff.mp (Option.mem_toList.mp ha)
        obtain ⟨before, -, -, -, -, hposition⟩ := exists_of_mem_tokens hb
        have hpos := byteLength_pos ht
        show position < b.position
        omega

end Tile

/-! ## Cutting -/

/-- Where the lexer finds something, it takes a tile off the text and goes on behind it. -/
theorem exists_tile {c : Char} {rest : List Char} (h : lexeme c rest ≠ .mismatch) :
    ∃ (t : Tile) (after : List Char), c :: rest = t.span ++ after ∧ after.length ≤ rest.length ∧
      alternative? (t.span ++ after) = some (t.group, t.span.length) ∧ t.group ≠ .mismatch ∧
      ∀ position, tokensFrom position (c :: rest) =
        (tokensFrom (position + byteLength t.span) after).map
          ((t.kind?.map (⟨·, position⟩)).toList ++ ·) := by
  have hsplit : ∀ more, c :: rest = (c :: rest.take more) ++ rest.drop more := fun more => by
    rw [List.cons_append, List.take_append_drop]
  have hlength : ∀ more, more ≤ rest.length → (c :: rest.take more).length = more + 1 := fun more hmore => by
    rw [List.length_cons, List.length_take, Nat.min_eq_left hmore]
  have hshorter : ∀ more, (rest.drop more).length ≤ rest.length := fun more =>
    List.length_drop ▸ Nat.sub_le _ _
  generalize hlexeme : lexeme c rest = found at h
  cases hlexeme ▸ finds_lexeme c rest with
  | @token g kind more hmore hfirst hkind =>
      refine ⟨⟨g, c :: rest.take more⟩, rest.drop more, hsplit more, hshorter more, ?_, ?_, ?_⟩
      · rw [← hsplit, hfirst, hlength more hmore]
      · rintro rfl
        cases hkind
      · intro position
        rw [tokensFrom, hlexeme, Tile.kind?, hkind]
        simp only
        cases tokensFrom (position + byteLength (c :: rest.take more)) (rest.drop more) <;> rfl
  | @blank more hmore hfirst hall =>
      -- A blank makes no token, and is a tile all the same.
      refine ⟨⟨.blank, c :: rest.take more⟩, rest.drop more, hsplit more, hshorter more, ?_, ?_, ?_⟩
      · rw [← hsplit, hfirst, hlength more hmore]
      · intro hgroup
        cases hgroup
      · intro position
        rw [tokensFrom, hlexeme]
        simp only
        cases tokensFrom (position + byteLength (c :: rest.take more)) (rest.drop more) <;> rfl
  | mismatch _ => exact absurd rfl h

/-- **A text is cut into tiles**, up to its end or to a place where only the last alternative matches. -/
theorem tokensFrom_cut (chars : List Char) :
    (∃ tiles c rest, chars = Tile.spans tiles ++ c :: rest ∧ Tile.IsCut tiles (c :: rest) ∧
      alternative? (c :: rest) = some (.mismatch, 1) ∧
      ∀ position, tokensFrom position chars =
        .error (.query (.unexpectedCharacter c) (some (position + byteLength (Tile.spans tiles))))) ∨
    ∃ tiles, chars = Tile.spans tiles ∧ Tile.IsCut tiles [] ∧
      ∀ position, tokensFrom position chars = .ok (Tile.tokens position tiles) := by
  -- What stands behind a tile is shorter than the text.
  induction hn : chars.length using Nat.strong_induction_on generalizing chars with
  | h n ih =>
  cases chars with
  | nil => exact .inr ⟨[], rfl, trivial, fun position => by rw [tokensFrom]; rfl⟩
  | cons c rest =>
      by_cases hlexeme : lexeme c rest = .mismatch
      · have hfirst : alternative? (c :: rest) = some (.mismatch, 1) := by
          cases hlexeme ▸ finds_lexeme c rest with
          | mismatch hfirst => exact hfirst
        exact .inl ⟨[], c, rest, rfl, trivial, hfirst, fun position => by rw [tokensFrom, hlexeme]; rfl⟩
      · obtain ⟨t, after, hchars, hshorter, hfirst, hgroup, hstep⟩ := exists_tile hlexeme
        have hless : after.length < n := by
          rw [List.length_cons] at hn
          omega
        obtain ⟨tiles, d, more, rfl, hcut, hlast, hrun⟩ | ⟨tiles, rfl, hcut, hrun⟩ :=
          ih after.length hless after rfl
        · refine .inl ⟨t :: tiles, d, more, ?_, ⟨hfirst, hgroup, hcut⟩, hlast, fun position => ?_⟩
          · rw [hchars, Tile.spans_cons, List.append_assoc]
          · rw [hstep, hrun, Tile.spans_cons, byteLength_append, Nat.add_assoc]
            rfl
        · refine .inr ⟨t :: tiles, hchars, ⟨?_, hgroup, hcut⟩, fun position => ?_⟩
          · rwa [List.append_nil]
          · rw [hstep, hrun]
            rfl

/-- **The tokens tile the text.** If a text is refused, then at the byte of the first place where, each time
the leftmost alternative has been taken from the start on, only the alternative for anything else matches.
Otherwise the tiles cover the text; all are tokens or runs of blanks; and the tokens stand one behind the
other where their tiles start, on edges of characters, with the end behind the last byte. -/
theorem tokenize_tiles (text : String) :
    (∃ tiles c rest, text.toList = Tile.spans tiles ++ c :: rest ∧ Tile.IsCut tiles (c :: rest) ∧
      alternative? (c :: rest) = some (.mismatch, 1) ∧
      tokenize text = .error (.query (.unexpectedCharacter c) (some (byteLength (Tile.spans tiles))))) ∨
    ∃ tiles tokens, text.toList = Tile.spans tiles ∧ Tile.IsCut tiles [] ∧
      tokenize text = .ok tokens ∧ tokens = Tile.tokens 0 tiles ∧
      (∀ t ∈ tiles, t.kind? = none → t.group = .blank ∧ t.span ≠ [] ∧ ∀ c ∈ t.span, isBlank c = true) ∧
      List.Pairwise (fun a b : Token => a.position < b.position) (tokens ++ [⟨.finish, text.utf8ByteSize⟩]) ∧
      (∀ token ∈ tokens ++ [⟨.finish, text.utf8ByteSize⟩], String.Pos.Raw.IsValid text ⟨token.position⟩) ∧
      parse text = ofTokens text.utf8ByteSize tokens := by
  rcases tokensFrom_cut text.toList with ⟨tiles, c, rest, htext, hcut, hlast, hrun⟩ | ⟨tiles, htext, hcut, hrun⟩
  · refine .inl ⟨tiles, c, rest, htext, hcut, hlast, ?_⟩
    rw [tokenize, hrun, Nat.zero_add]
  · have hfacts := hcut.forall_mem
    have hspans : ∀ t ∈ tiles, t.span ≠ [] := fun t ht => (hfacts t ht).1
    have hsize : text.utf8ByteSize = byteLength (Tile.spans tiles) := by
      rw [← htext, ← utf8ByteSize_ofList, String.ofList_toList]
    have htokens : tokenize text = .ok (Tile.tokens 0 tiles) := hrun 0
    refine .inr ⟨tiles, _, htext, hcut, htokens, rfl, fun t ht hnone => ?_, ?_, ?_, ?_⟩
    · obtain ⟨hgroup, hall⟩ := (hfacts t ht).2 hnone
      exact ⟨hgroup, hspans t ht, hall⟩
    · refine List.pairwise_append.mpr ⟨Tile.pairwise_tokens hspans 0, List.pairwise_singleton _ _, ?_⟩
      intro token htoken finish hfinish
      obtain rfl := List.mem_singleton.mp hfinish
      have hless := Tile.lt_of_mem_tokens hspans htoken
      rwa [Nat.zero_add, ← hsize] at hless
    · intro token htoken
      rcases List.mem_append.mp htoken with htoken | hfinish
      · obtain ⟨before, t, after, rfl, -, hposition⟩ := Tile.exists_of_mem_tokens htoken
        rw [hposition, Nat.zero_add]
        exact isValid_byteLength (htext.trans (Tile.spans_append before (t :: after)))
      · obtain rfl := List.mem_singleton.mp hfinish
        exact hsize ▸ isValid_byteLength (htext.trans (List.append_nil _).symm)
    · rw [parse, htokens]
      rfl

end ProgramGraph.Query
