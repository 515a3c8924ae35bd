import ProgramGraph.Proofs.Query.Display

set_option autoImplicit false

/-! # Queries that are printed and read again

The pieces of a printed query are its tokens, and the rules of the grammar take as many of them for
each part as were printed for it. So a query that came from a text is read again as itself exactly if
each of its literals is the value of its own token (`parse_display_eq_ok_iff`). Texts and integers always
are. A float is one if it is printed with a point: the shortest digits are read as the same float, and
without a point they denote an integer, or nothing.
-/

namespace ProgramGraph.Query

/-! ## Printed and read again -/

/-- The tokens of some pieces, all of which are tokens. -/
def Reads (pieces : List Piece) (kinds : List TokenKind) : Prop := pieces.mapM Piece.kind? = some kinds

theorem reads_nil {kinds : List TokenKind} : Reads [] kinds ↔ kinds = [] := by
  rw [Reads, List.mapM_nil, eq_comm]
  exact Option.some_inj

theorem reads_cons {p : Piece} {rest : List Piece} {kinds : List TokenKind} :
    Reads (p :: rest) kinds ↔ ∃ kind others, p.kind? = some kind ∧ Reads rest others ∧ kinds = kind :: others := by
  rw [Reads, List.mapM_cons]
  constructor
  · intro h
    obtain ⟨kind, hkind, h⟩ := Option.bind_eq_some_iff.mp h
    obtain ⟨others, hothers, heq⟩ := Option.bind_eq_some_iff.mp h
    exact ⟨kind, others, hkind, hothers, (Option.some.inj heq).symm⟩
  · rintro ⟨kind, others, hkind, hothers, rfl⟩
    rw [hkind, show rest.mapM Piece.kind? = some others from hothers]
    rfl

theorem reads_append {first second : List Piece} {kinds : List TokenKind} :
    Reads (first ++ second) kinds ↔
      ∃ front back, Reads first front ∧ Reads second back ∧ kinds = front ++ back := by
  induction first generalizing kinds with
  | nil => simp [reads_nil]
  | cons p rest ih =>
      rw [List.cons_append, reads_cons]
      constructor
      · rintro ⟨kind, others, hkind, hothers, rfl⟩
        obtain ⟨front, back, hfront, hback, rfl⟩ := ih.mp hothers
        exact ⟨kind :: front, back, reads_cons.mpr ⟨kind, front, hkind, hfront, rfl⟩, hback, rfl⟩
      · rintro ⟨front, back, hfront, hback, rfl⟩
        obtain ⟨kind, others, hkind, hothers, rfl⟩ := reads_cons.mp hfront
        exact ⟨kind, others ++ back, hkind, ih.mpr ⟨others, back, hothers, hback, rfl⟩, rfl⟩

theorem Reads.length_eq {pieces : List Piece} {kinds : List TokenKind} (h : Reads pieces kinds) :
    kinds.length = pieces.length := by
  induction pieces generalizing kinds with
  | nil =>
      rw [reads_nil.mp h]
      rfl
  | cons p rest ih =>
      obtain ⟨kind, others, -, hothers, rfl⟩ := reads_cons.mp h
      rw [List.length_cons, List.length_cons, ih hothers]

/-- A readable query that is printed is read again as whatever its tokens form. -/
theorem IsReadable.parse_display {q : Query} (h : q.IsReadable) (other : Query) :
    parse q.display = .ok other ↔
      ∃ kinds, Reads q.pieces kinds ∧ Forms (.keyword .find :: kinds) other := by
  -- FIND stands at the front without a blank, so it is lexed before the row of the other pieces.
  obtain ⟨after, hfind⟩ := (isLexed_keyword .find).kinds_append (endsPiece_row q.pieces) 0
  have hchars : q.display.toList = (Keyword.piece .find).chars ++ row q.pieces := toList_display q
  have hkinds : kinds 0 q.display.toList = (q.pieces.mapM Piece.kind?).map (.keyword .find :: ·) := by
    rw [hchars, hfind, kinds_row h.isLexed]
    rfl
  rw [parse, bind_eq_ok]
  simp only [ofTokens_eq_ok_iff]
  constructor
  · rintro ⟨tokens, htokens, hforms⟩
    rw [kinds, show tokensFrom 0 q.display.toList = .ok tokens from htokens] at hkinds
    obtain ⟨found, hfound, heq⟩ := Option.map_eq_some_iff.mp hkinds.symm
    exact ⟨found, hfound, heq ▸ hforms⟩
  · rintro ⟨found, hfound, hforms⟩
    rw [show q.pieces.mapM Piece.kind? = some found from hfound, kinds] at hkinds
    obtain ⟨tokens, htokens, heq⟩ := Option.map_eq_some_iff.mp hkinds
    exact ⟨tokens, toOption_eq_some.mp htokens, heq ▸ hforms⟩

/-- The condition is what its own pieces form. -/
def Condition.Returns (c : Condition) : Prop := ∃ kinds, Reads c.pieces kinds ∧ FormsCondition kinds c

theorem FormsCondition.length_eq {tokens : List TokenKind} {c : Condition} (h : FormsCondition tokens c) :
    tokens.length = c.pieces.length := by
  cases h <;> rfl

theorem FormsMore.length_eq {tokens : List TokenKind} {more : List (Connective × Condition)}
    (h : FormsMore tokens more) : tokens.length = (morePieces more).length := by
  induction h with
  | nil => rfl
  | cons connective first rest ih =>
      simp only [morePieces, List.flatMap_cons, List.length_append, List.length_cons] at ih ⊢
      rw [first.length_eq, ih]

theorem formsMore_iff {more : List (Connective × Condition)} :
    (∃ kinds, Reads (morePieces more) kinds ∧ FormsMore kinds more) ↔
      ∀ c ∈ more.map Prod.snd, c.Returns := by
  induction more with
  | nil => exact iff_of_true ⟨[], reads_nil.mpr rfl, .nil⟩ fun c hc => absurd hc List.not_mem_nil
  | cons first rest ih =>
      obtain ⟨connective, c⟩ := first
      rw [List.map_cons, List.forall_mem_cons, ← ih, morePieces_cons]
      constructor
      · rintro ⟨kinds, hreads, hforms⟩
        obtain ⟨kind, others, hkind, hothers, rfl⟩ := reads_cons.mp hreads
        obtain ⟨front, back, hfront, hback, rfl⟩ := reads_append.mp hothers
        generalize hall : kind :: (front ++ back) = all at hforms
        cases hforms with
        | cons _ hfirst hrest =>
            obtain ⟨-, hsplit⟩ := List.cons.inj hall
            -- Where the first condition ends is clear from the number of its tokens, however it is split.
            obtain ⟨rfl, rfl⟩ := List.append_inj hsplit (hfront.length_eq.trans hfirst.length_eq.symm)
            exact ⟨⟨_, hfront, hfirst⟩, ⟨_, hback, hrest⟩⟩
      · rintro ⟨⟨front, hfront, hfirst⟩, ⟨back, hback, hrest⟩⟩
        exact ⟨_, reads_cons.mpr ⟨_, _, rfl, reads_append.mpr ⟨_, _, hfront, hback, rfl⟩, rfl⟩,
          .cons connective hfirst hrest⟩

theorem formsConditions_iff {cs : Conditions} :
    (∃ kinds, Reads (cs.first.pieces ++ morePieces cs.rest) kinds ∧ FormsConditions kinds cs) ↔
      ∀ c ∈ cs.toList, c.Returns := by
  rw [Conditions.toList, List.forall_mem_cons, ← formsMore_iff]
  constructor
  · rintro ⟨kinds, hreads, hforms⟩
    obtain ⟨front, back, hfront, hback, rfl⟩ := reads_append.mp hreads
    generalize hall : front ++ back = all at hforms
    cases hforms with
    | mk hfirst hrest =>
        obtain ⟨rfl, rfl⟩ := List.append_inj hall (hfront.length_eq.trans hfirst.length_eq.symm)
        exact ⟨⟨_, hfront, hfirst⟩, ⟨_, hback, hrest⟩⟩
  · rintro ⟨⟨front, hfront, hfirst⟩, ⟨back, hback, hrest⟩⟩
    exact ⟨_, reads_append.mpr ⟨_, _, hfront, hback, rfl⟩, .mk hfirst hrest⟩

/-- The value is what its own token forms. -/
theorem exists_formsValue_iff {value : Property} (h : IsLiteral value) :
    (∃ token, (valuePiece value).kind? = some token ∧ FormsValue token value) ↔
      ∀ x, value = .float x → '.' ∈ (Property.float x).display.toList := by
  cases value with
  | text s =>
      refine iff_of_true ⟨.text s, rfl, .text s⟩ ?_
      rintro x ⟨⟩
  | int n =>
      refine iff_of_true ⟨_, rfl, .number ?_⟩ (by rintro x ⟨⟩)
      have hwritten := Json.toList_toString_int n.toInt
      by_cases hnegative : n.toInt < 0
      · rw [if_pos hnegative] at hwritten
        refine .negative hwritten (areDigits_toDigits _) ?_
        show n.toInt = -Decimal.natOfDigits (Nat.toDigits 10 n.toInt.natAbs)
        rw [Json.natOfDigits_toDigits]
        omega
      · rw [if_neg hnegative, List.nil_append] at hwritten
        refine .natural (hwritten ▸ areDigits_toDigits _) ?_
        rw [Property.display, hwritten, Json.natOfDigits_toDigits]
        omega
  | float x =>
      constructor
      · rintro ⟨token, htoken, hforms⟩ y heq
        obtain rfl := Property.float.inj heq
        -- A word is read as a text, and digits without a point as an integer.
        cases hforms with
        | number hdenotes =>
            cases hdenotes with
            | float hpoint hread =>
                have hwritten := number_of_floatToken? htoken
                rw [hwritten] at hpoint
                exact hpoint
      · intro hpoint
        have hpoint : '.' ∈ (Decimal.plain.render x.toFloat).toList := hpoint x rfl
        obtain ⟨hnumber, hfinite⟩ := Decimal.finite_of_point hpoint
        refine ⟨_, floatToken?_of_isNumeral (isNumeral_render hnumber hfinite), .number ?_⟩
        have hdenotes := Denotes.float hpoint (Decimal.read?_render hpoint)
        have hsame : Binary64.ofFloat x.toFloat = x :=
          congrArg Binary64.mk (Decimal.toBits_ofBits hnumber)
        rwa [hsame] at hdenotes
  | null | bool | texts => cases h

/-- A condition is what its own pieces form if its float is written with a point. -/
theorem Condition.IsReadable.returns_iff {c : Condition} (h : c.IsReadable) :
    c.Returns ↔ ∀ name op x, c = .attribute name op (.float x) → '.' ∈ (Property.float x).display.toList := by
  rcases c with ⟨name, op, value⟩ | ⟨kind, target⟩
  · -- Only the value of a comparison can be a float.
    have hvalue : (∀ name' op' x, Condition.attribute name op value = .attribute name' op' (.float x) →
        '.' ∈ (Property.float x).display.toList) ↔
        ∀ x, value = .float x → '.' ∈ (Property.float x).display.toList :=
      ⟨fun hall x heq => hall name op x (heq ▸ rfl), fun hall _ _ x heq =>
        hall x (Condition.attribute.inj heq).2.2⟩
    rw [hvalue, ← exists_formsValue_iff h.2]
    constructor
    · rintro ⟨kinds, hreads, hforms⟩
      obtain ⟨_, _, -, hbehindName, rfl⟩ := reads_cons.mp hreads
      obtain ⟨_, _, -, hbehindSign, rfl⟩ := reads_cons.mp hbehindName
      obtain ⟨token, _, htoken, hbehindValue, rfl⟩ := reads_cons.mp hbehindSign
      obtain rfl := reads_nil.mp hbehindValue
      cases hforms with
      | comparison name op hvalue => exact ⟨token, htoken, hvalue⟩
    · rintro ⟨token, htoken, hforms⟩
      exact ⟨_, reads_cons.mpr ⟨_, _, rfl, reads_cons.mpr ⟨_, _, rfl, reads_cons.mpr
        ⟨_, _, htoken, reads_nil.mpr rfl, rfl⟩, rfl⟩, rfl⟩, .comparison name op hforms⟩
  · refine iff_of_true ⟨_, rfl, .relation kind target⟩ ?_
    rintro name op x ⟨⟩

theorem exists_findPieces (kind : String) (asName : Option String) :
    ∃ kinds, Reads (findPieces kind asName) kinds ∧ FormsFind (.keyword .find :: kinds) (kind, asName) := by
  cases asName with
  | none => exact ⟨_, rfl, .plain kind⟩
  | some name => exact ⟨_, rfl, .named kind name⟩

theorem exists_countPieces (keyword : Keyword) {count : Option Nat} (h : ∀ n ∈ count, n < UInt64.size) :
    ∃ kinds, Reads (countPieces keyword count) kinds ∧ FormsPart keyword FormsCount kinds count := by
  cases count with
  | none => exact ⟨[], rfl, .absent⟩
  | some n =>
      have hdigits : (toString n).toList = Nat.toDigits 10 n := by simp
      refine ⟨_, rfl, .present (.mk ⟨?_, ?_, h n rfl⟩)⟩
      · rw [hdigits]
        exact areDigits_toDigits n
      · rw [hdigits, Json.natOfDigits_toDigits]

theorem FormsFind.length_eq {tokens : List TokenKind} {kind : String} {asName : Option String}
    (h : FormsFind tokens (kind, asName)) : tokens.length = (findPieces kind asName).length + 1 := by
  cases h <;> rfl

theorem FormsPart.where_length_eq {tokens : List TokenKind} {conditions : Option Conditions}
    (h : FormsPart .where FormsConditions tokens conditions) :
    tokens.length = (wherePieces conditions).length := by
  cases h with
  | absent => rfl
  | present hconditions =>
      cases hconditions with
      | mk first rest =>
          rw [wherePieces, Option.elim_some, List.length_cons, List.length_cons, List.length_append,
            List.length_append, first.length_eq, rest.length_eq]

theorem exists_wherePieces_iff {conditions : Option Conditions} :
    (∃ kinds, Reads (wherePieces conditions) kinds ∧ FormsPart .where FormsConditions kinds conditions) ↔
      ∀ c ∈ conditions.elim [] Conditions.toList, c.Returns := by
  cases conditions with
  | none => exact iff_of_true ⟨[], rfl, .absent⟩ fun c hc => absurd hc List.not_mem_nil
  | some cs =>
      rw [wherePieces, Option.elim_some, Option.elim_some, ← formsConditions_iff]
      constructor
      · rintro ⟨kinds, hreads, hforms⟩
        obtain ⟨kind, others, -, hothers, rfl⟩ := reads_cons.mp hreads
        cases hforms with
        | present hconditions => exact ⟨_, hothers, hconditions⟩
      · rintro ⟨kinds, hreads, hforms⟩
        exact ⟨_, reads_cons.mpr ⟨_, _, rfl, hreads, rfl⟩, .present hforms⟩

/-- A readable query is what its pieces form if each of its conditions is. -/
theorem IsReadable.forms_iff {q : Query} (h : q.IsReadable) :
    (∃ kinds, Reads q.pieces kinds ∧ Forms (.keyword .find :: kinds) q) ↔
      ∀ c ∈ q.conditionList, c.Returns := by
  obtain ⟨kind, asName, conditions, limit, offset⟩ := q
  rw [conditionList, ← exists_wherePieces_iff]
  constructor
  · rintro ⟨kinds, hreads, hforms⟩
    obtain ⟨finds, others, hfinds, hothers, rfl⟩ := reads_append.mp hreads
    obtain ⟨wheres, rest, hwheres, -, rfl⟩ := reads_append.mp hothers
    generalize hall : TokenKind.keyword .find :: (finds ++ (wheres ++ rest)) = all at hforms
    -- The parts are as long on both sides, so they are the same.
    cases hforms with
    | mk hfind hconditions hlimit hoffset =>
        rw [List.append_assoc, List.append_assoc, ← List.cons_append] at hall
        obtain ⟨-, hrest⟩ := List.append_inj hall (by
          rw [List.length_cons, hfinds.length_eq, hfind.length_eq])
        obtain ⟨rfl, -⟩ := List.append_inj hrest (hwheres.length_eq.trans hconditions.where_length_eq.symm)
        exact ⟨_, hwheres, hconditions⟩
  · rintro ⟨wheres, hwheres, hconditions⟩
    obtain ⟨finds, hfinds, hfind⟩ := exists_findPieces kind asName
    obtain ⟨limits, hlimits, hlimit⟩ := exists_countPieces .limit h.limit
    obtain ⟨offsets, hoffsets, hoffset⟩ := exists_countPieces .offset h.offset
    refine ⟨finds ++ (wheres ++ (limits ++ offsets)), ?_, ?_⟩
    · exact reads_append.mpr ⟨_, _, hfinds, reads_append.mpr ⟨_, _, hwheres,
        reads_append.mpr ⟨_, _, hlimits, hoffsets, rfl⟩, rfl⟩, rfl⟩
    · have hforms := Forms.mk hfind hconditions hlimit hoffset
      simpa only [List.cons_append, List.append_assoc] using hforms

theorem parse_eq_ok {text : String} {tokens : List Token} {q : Query} (htokens : tokenize text = .ok tokens)
    (hforms : Forms (tokens.map Token.kind) q) : parse text = .ok q :=
  bind_eq_ok.mpr ⟨tokens, htokens, (ofTokens_eq_ok_iff _).mpr hforms⟩

theorem IsReadable.parse_display_self {q : Query} (h : q.IsReadable) :
    parse q.display = .ok q ↔
      ∀ name op x, .attribute name op (.float x) ∈ q.conditionList →
        '.' ∈ (Property.float x).display.toList := by
  rw [h.parse_display, h.forms_iff]
  constructor
  · intro hall name op x hmem
    exact (h.conditions _ hmem).returns_iff.mp (hall _ hmem) name op x rfl
  · intro hall c hmem
    refine (h.conditions c hmem).returns_iff.mpr ?_
    rintro name op x rfl
    exact hall name op x hmem

/-- **A query that was read is printed so that it is read again as itself exactly if each of its floats
is printed with a point.** Names, texts, integers, counts and the order of the conditions always come
back. -/
theorem parse_display_eq_ok_iff {text : String} {q : Query} (h : parse text = .ok q) :
    parse q.display = .ok q ↔
      ∀ name op x, .attribute name op (.float x) ∈ q.conditionList →
        '.' ∈ (Property.float x).display.toList :=
  (isReadable_of_parse h).parse_display_self

/-- A negative fraction behind a text with a quote in it. -/
theorem parse_display_fraction :
    ∃ q, parse "find function where name = \"it's\" and score >= -00.250 limit 10" = .ok q ∧
      parse q.display = .ok q := by
  have htokens : tokenize "find function where name = \"it's\" and score >= -00.250 limit 10" =
      .ok
        [⟨.keyword .find, 0⟩, ⟨.identifier "function", 5⟩, ⟨.keyword .where, 14⟩,
          ⟨.identifier "name", 20⟩, ⟨.operator (.compare .eq), 25⟩, ⟨.text "it's", 27⟩,
          ⟨.keyword .and, 34⟩, ⟨.identifier "score", 38⟩, ⟨.operator (.compare .ge), 44⟩,
          ⟨.number "-00.250", 47⟩, ⟨.keyword .limit, 55⟩, ⟨.number "10", 61⟩] :=
    toOption_eq_some.mp (by decide +kernel)
  have hcount : Counts "10" 10 := ⟨⟨by decide, List.all_eq_true.mp rfl⟩, by decide +kernel, by decide⟩
  have hfloat : Denotes "-00.250" (.float (.ofFloat (Float.ofBits 0xBFD0000000000000))) :=
    .float (by decide) (by decide +kernel)
  have hforms := Forms.mk (.plain "function")
    (.present (.mk (.comparison "name" (.compare .eq) (.text "it's"))
      (.cons .and (.comparison "score" (.compare .ge) (.number hfloat)) .nil)))
    (.present (.mk hcount)) .absent
  have hparse := parse_eq_ok htokens hforms
  refine ⟨_, hparse, (parse_display_eq_ok_iff hparse).mpr fun name op x hmem => ?_⟩
  obtain ⟨-, -, rfl⟩ : name = "score" ∧ op = .compare .ge ∧
      x = .ofFloat (Float.ofBits 0xBFD0000000000000) := by
    simpa [conditionList, Conditions.toList] using hmem
  decide +kernel

/-- A whole float is printed like an integer, and is read again as one. -/
theorem parse_display_whole :
    ∃ q, parse "FIND function WHERE score >= 2.0" = .ok q ∧ q.display = "FIND function WHERE score >= 2" ∧
      parse q.display ≠ .ok q := by
  have htokens : tokenize "FIND function WHERE score >= 2.0" =
      .ok
        [⟨.keyword .find, 0⟩, ⟨.identifier "function", 5⟩, ⟨.keyword .where, 14⟩,
          ⟨.identifier "score", 20⟩, ⟨.operator (.compare .ge), 26⟩, ⟨.number "2.0", 29⟩] :=
    toOption_eq_some.mp (by decide +kernel)
  have hfloat : Denotes "2.0" (.float (.ofFloat (Float.ofBits 0x4000000000000000))) :=
    .float (by decide) (by decide +kernel)
  have hforms := Forms.mk (.plain "function")
    (.present (.mk (.comparison "score" (.compare .ge) (.number hfloat)) .nil)) .absent .absent
  have hparse := parse_eq_ok htokens hforms
  refine ⟨_, hparse, by decide +kernel, fun hsame => ?_⟩
  have hpoint := (isReadable_of_parse hparse).parse_display_self.mp hsame "score" (.compare .ge)
    (.ofFloat (Float.ofBits 0x4000000000000000)) (List.mem_singleton.mpr rfl)
  exact absurd hpoint (by decide +kernel)

end ProgramGraph.Query
