import ProgramGraph.Proofs.Query.Lexing

set_option autoImplicit false

/-! # What queries are made of

Not every query can come from a text. The lexer yields only names that are words and not reserved,
and texts that do not hold both marks of quotation, because one of the two enclosed them; a literal is a text
or a number, and a count fits in 64 bits. Whatever is read from a text is `IsReadable`.
-/

namespace ProgramGraph.Query

open ProgramGraph.Text

/-! ## What tokens are made of -/

/-- A word that is not reserved. -/
structure IsName (name : String) : Prop extends IsWord name where
  token : wordToken name = .identifier name

/-- A text that some quotes can hold. -/
def IsQuotable (s : String) : Prop := '\'' ∈ s.toList → '"' ∉ s.toList

/-- A word holds no quotes at all. -/
theorem IsWord.isQuotable {word : String} (h : IsWord word) : IsQuotable word := by
  obtain ⟨c, more, hword, hc, hmore⟩ := h.starts
  intro hsingle
  rw [hword] at hsingle
  rcases List.mem_cons.mp hsingle with rfl | hmem
  · exact absurd hc (by decide)
  · exact absurd (hmore _ hmem) (by decide)

/-- What the lexer knows of a token. -/
def TokenKind.IsReadable : TokenKind → Prop
  | .identifier name => IsName name
  | .text s => IsQuotable s
  | _ => True

theorem isReadable_wordToken {word : String} (h : IsWord word) : (wordToken word).IsReadable := by
  have hname : ∀ name, wordToken word = .identifier name → name = word := by
    intro name hname
    unfold wordToken at hname
    split at hname
    · cases hname
    · split at hname
      · cases hname
      · exact (TokenKind.identifier.inj hname).symm
  -- A word is a name or a keyword, and never a text.
  cases hkind : wordToken word with
  | identifier name =>
      obtain rfl := hname name hkind
      exact ⟨h, hkind⟩
  | text s =>
      unfold wordToken at hkind
      split at hkind
      · cases hkind
      · split at hkind <;> cases hkind
  | _ => trivial

theorem isReadable_of_lexeme {c : Char} {rest : List Char} {kind : TokenKind} {more : Nat}
    (h : lexeme c rest = .token kind more) : kind.IsReadable := by
  unfold lexeme at h
  split at h
  · rename_i body hbody
    obtain ⟨rfl, -⟩ := Lexeme.token.inj h
    split at hbody
    · rename_i hquote
      unfold body? at hbody
      split at hbody
      · obtain rfl := Option.some.inj hbody
        -- The text ends at the next mark of the kind that opened it, so it holds none of them.
        have hmark : c ∉ rest.takeWhile (· != c) := fun hmem => by
          simpa using List.all_eq_true.mp List.all_takeWhile c hmem
        simp only [Bool.or_eq_true, decide_eq_true_eq] at hquote
        show IsQuotable _
        rw [IsQuotable, String.toList_ofList]
        rcases hquote with rfl | rfl
        · exact fun hsingle => absurd hsingle hmark
        · exact fun _ => hmark
      · cases hbody
    · cases hbody
  · split at h
    · obtain ⟨rfl, -⟩ := Lexeme.token.inj h
      trivial
    · split at h
      · obtain ⟨rfl, -⟩ := Lexeme.token.inj h
        trivial
      · split at h
        · rename_i hc
          obtain ⟨rfl, -⟩ := Lexeme.token.inj h
          refine isReadable_wordToken ⟨c, rest.takeWhile continuesWord, String.toList_ofList, hc, ?_⟩
          exact List.all_eq_true.mp List.all_takeWhile
        · repeat' split at h
          all_goals first
            | (obtain ⟨rfl, -⟩ := Lexeme.token.inj h; trivial)
            | cases h

/-- What is so for each token that can be next is so for all tokens of a text. -/
theorem forall_kind_of_lexeme {P : TokenKind → Prop}
    (hlexeme : ∀ {c rest kind more}, lexeme c rest = .token kind more → P kind) {position : Nat} {chars : List Char}
    {tokens : List Token} (h : tokensFrom position chars = .ok tokens) : ∀ token ∈ tokens, P token.kind := by
  induction position, chars using tokensFrom.induct generalizing tokens with
  | case1 position =>
      rw [tokensFrom] at h
      obtain rfl := Except.ok.inj h
      exact fun token hmem => absurd hmem List.not_mem_nil
  | case2 position c rest hmismatch =>
      rw [tokensFrom, hmismatch] at h
      cases h
  | case3 position c rest more hblank ih =>
      rw [tokensFrom, hblank] at h
      exact ih h
  | case4 position c rest kind more htoken ih =>
      rw [tokensFrom, htoken] at h
      obtain ⟨others, hothers, heq⟩ := bind_eq_ok.mp h
      obtain rfl := Except.ok.inj heq
      intro token hmem
      rcases List.mem_cons.mp hmem with rfl | hmem
      · exact hlexeme htoken
      · exact ih hothers token hmem

theorem isReadable_of_mem {position : Nat} {chars : List Char} {tokens : List Token}
    (h : tokensFrom position chars = .ok tokens) : ∀ token ∈ tokens, token.kind.IsReadable :=
  forall_kind_of_lexeme isReadable_of_lexeme h

/-! ## What queries are made of -/

/-- The value of a literal: a text that some quotes can hold, or a number. -/
def IsLiteral : Property → Prop
  | .text s => IsQuotable s
  | .int _ | .float _ => True
  | .null | .bool _ | .texts _ => False

def Condition.IsReadable : Condition → Prop
  | .attribute name _ value => IsName name ∧ IsLiteral value
  | .related _ target => IsQuotable target

/-- A query as it is read from a text. -/
structure IsReadable (q : Query) : Prop where
  kind : IsName q.kind
  asName : ∀ name ∈ q.asName, IsName name
  conditions : ∀ c ∈ q.conditionList, c.IsReadable
  limit : ∀ n ∈ q.limit, n < UInt64.size
  offset : ∀ n ∈ q.offset, n < UInt64.size

theorem FormsValue.isLiteral {token : TokenKind} {value : Property} (h : FormsValue token value)
    (hreadable : token.IsReadable) : IsLiteral value := by
  cases h with
  | number hdenotes => cases hdenotes <;> trivial
  | text s => exact hreadable
  | word s =>
      exact hreadable.isQuotable

theorem FormsCondition.isReadable {tokens : List TokenKind} {c : Condition} (h : FormsCondition tokens c)
    (hreadable : ∀ token ∈ tokens, token.IsReadable) : c.IsReadable := by
  cases h with
  | comparison name op hvalue =>
      exact ⟨hreadable (.identifier name) (by simp), hvalue.isLiteral (hreadable _ (by simp))⟩
  | relation kind target => exact hreadable (.text target) (by simp)

theorem FormsMore.isReadable {tokens : List TokenKind} {more : List (Connective × Condition)}
    (h : FormsMore tokens more) (hreadable : ∀ token ∈ tokens, token.IsReadable) :
    ∀ c ∈ more.map Prod.snd, c.IsReadable := by
  induction h with
  | nil => exact fun c hc => absurd hc List.not_mem_nil
  | cons connective first rest ih =>
      simp only [List.mem_cons, List.mem_append, List.cons_append] at hreadable
      intro c hc
      rcases List.mem_cons.mp hc with rfl | hc
      · exact first.isReadable fun token hmem => hreadable token (.inr (.inl hmem))
      · exact ih (fun token hmem => hreadable token (.inr (.inr hmem))) c hc

theorem FormsPart.lt_size {keyword : Keyword} {tokens : List TokenKind} {count : Option Nat}
    (h : FormsPart keyword FormsCount tokens count) : ∀ n ∈ count, n < UInt64.size := by
  rintro n hn
  cases h with
  | absent => cases hn
  | present hcount =>
      obtain rfl := Option.some.inj hn
      cases hcount with
      | mk hcounts => exact hcounts.fits

/-- **What is read from readable tokens is readable.** -/
theorem Forms.isReadable {tokens : List TokenKind} {q : Query} (h : Forms tokens q)
    (hreadable : ∀ token ∈ tokens, token.IsReadable) : q.IsReadable := by
  cases h with
  | mk hfind hwhere hlimit hoffset =>
      simp only [List.mem_append] at hreadable
      -- Each name of the query and each condition comes from tokens among those that were read.
      refine ⟨?_, ?_, ?_, hlimit.lt_size, hoffset.lt_size⟩
      · cases hfind with
        | plain | named => exact hreadable (.identifier _) (by simp)
      · intro name hname
        cases hfind with
        | plain => cases hname
        | named kind asName =>
            obtain rfl := Option.some.inj hname
            exact hreadable (.identifier asName) (by simp)
      · intro c hc
        cases hwhere with
        | absent => cases hc
        | present hconditions =>
            cases hconditions with
            | mk first rest =>
                rcases List.mem_cons.mp hc with rfl | hc
                · exact first.isReadable fun token hmem => hreadable token (by simp [hmem])
                · exact rest.isReadable (fun token hmem => hreadable token (by simp [hmem])) c hc

/-- What is read from a text is readable. -/
theorem isReadable_of_parse {text : String} {q : Query} (h : parse text = .ok q) : q.IsReadable := by
  obtain ⟨tokens, htokens, hforms⟩ := bind_eq_ok.mp h
  refine ((ofTokens_eq_ok_iff _).mp hforms).isReadable fun kind hmem => ?_
  obtain ⟨token, htoken, rfl⟩ := List.mem_map.mp hmem
  exact isReadable_of_mem htokens token htoken

end ProgramGraph.Query
