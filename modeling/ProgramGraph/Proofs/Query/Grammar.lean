import Mathlib.Logic.Basic
import ProgramGraph.Proofs.Store.Rows
import ProgramGraph.Query.Parser

set_option autoImplicit false

/-! # The grammar of queries

    FIND kind [AS alias] [WHERE condition {(AND | OR) condition}] [LIMIT count] [OFFSET count]

The grammar says which queries some kinds of tokens form, with no word about how they are read:
`Forms` has a rule for each part of the line above. Reading is exact (`parse_eq_ok_iff`): a text is read as
a query if its tokens form that query, and otherwise not at all.

Whoever reads has to know where a part ends without having read the next one. So a reader is
`Exact` for a part up to what may not follow it: an alias would go on with AS, conditions with a
connective, and a part that is left out must not begin after all.
-/

namespace ProgramGraph.Query

/-! ## Numbers -/

/-- Digits that denote a number. A number token may hold digits of any script, and only those from
`0` to `9` denote one. -/
def AreDigits (digits : List Char) : Prop := digits ≠ [] ∧ ∀ c ∈ digits, c.isDigit = true

/-- The number that a token denotes where a value stands. -/
inductive Denotes (written : String) : Property → Prop where
  | natural {n : Int64} (digits : AreDigits written.toList)
      (value : n.toInt = Decimal.natOfDigits written.toList) : Denotes written (.int n)
  | negative {digits : List Char} {n : Int64} (minus : written.toList = '-' :: digits)
      (all : AreDigits digits) (value : n.toInt = -Decimal.natOfDigits digits) :
      Denotes written (.int n)
  | float {x : Float} (point : '.' ∈ written.toList)
      (value : Decimal.read? written.toList = some x) : Denotes written (.float (.ofFloat x))

/-- The count that a token denotes behind LIMIT or OFFSET. -/
structure Counts (written : String) (n : Nat) : Prop where
  digits : AreDigits written.toList
  value : Decimal.natOfDigits written.toList = n
  fits : n < UInt64.size

/-! ## The rules -/

/-- The value that a token is. A word stands for its text. -/
inductive FormsValue : TokenKind → Property → Prop where
  | number {written : String} {value : Property} (h : Denotes written value) :
      FormsValue (.number written) value
  | text (s : String) : FormsValue (.text s) (.text s)
  | word (s : String) : FormsValue (.identifier s) (.text s)

inductive FormsCondition : List TokenKind → Condition → Prop where
  | comparison (name : String) (op : Operator) {token : TokenKind} {value : Property}
      (h : FormsValue token value) :
      FormsCondition [.identifier name, .operator op, token] (.attribute name op value)
  | relation (kind : EdgeKind) (target : String) :
      FormsCondition [.keyword (.relation kind), .text target] (.related kind target)

/-- The reserved word for a connective. -/
def Connective.keyword : Connective → Keyword
  | .and => .and
  | .or => .or

/-- Further conditions, each behind a connective. -/
inductive FormsMore : List TokenKind → List (Connective × Condition) → Prop where
  | nil : FormsMore [] []
  | cons (connective : Connective) {tokens others : List TokenKind} {c : Condition}
      {more : List (Connective × Condition)} (first : FormsCondition tokens c)
      (rest : FormsMore others more) :
      FormsMore (.keyword connective.keyword :: tokens ++ others) ((connective, c) :: more)

inductive FormsConditions : List TokenKind → Conditions → Prop where
  | mk {tokens others : List TokenKind} {c : Condition} {more : List (Connective × Condition)}
      (first : FormsCondition tokens c) (rest : FormsMore others more) :
      FormsConditions (tokens ++ others) ⟨c, more⟩

/-- The kind that is looked for, with its alias. -/
inductive FormsFind : List TokenKind → String × Option String → Prop where
  | plain (kind : String) : FormsFind [.keyword .find, .identifier kind] (kind, none)
  | named (kind asName : String) :
      FormsFind [.keyword .find, .identifier kind, .keyword .as, .identifier asName]
        (kind, some asName)

inductive FormsCount : List TokenKind → Nat → Prop where
  | mk {written : String} {n : Nat} (h : Counts written n) : FormsCount [.number written] n

/-- A part behind a reserved word, which may be left out. -/
inductive FormsPart {α : Type} (keyword : Keyword) (forms : List TokenKind → α → Prop) :
    List TokenKind → Option α → Prop where
  | absent : FormsPart keyword forms [] none
  | present {tokens : List TokenKind} {a : α} (h : forms tokens a) :
      FormsPart keyword forms (.keyword keyword :: tokens) (some a)

/-- **The grammar**: the query that tokens of some kinds form. -/
inductive Forms : List TokenKind → Query → Prop where
  | mk {find whereTokens limitTokens offsetTokens : List TokenKind} {kind : String}
      {asName : Option String} {conditions : Option Conditions} {limit offset : Option Nat}
      (hfind : FormsFind find (kind, asName))
      (hwhere : FormsPart .where FormsConditions whereTokens conditions)
      (hlimit : FormsPart .limit FormsCount limitTokens limit)
      (hoffset : FormsPart .offset FormsCount offsetTokens offset) :
      Forms (find ++ whereTokens ++ limitTokens ++ offsetTokens)
        ⟨kind, asName, conditions, limit, offset⟩

/-! ## Numbers are read exactly -/

theorem natBelow?_eq_some_iff {bound n : Nat} {digits : List Char} :
    natBelow? bound digits = some n ↔
      AreDigits digits ∧ Decimal.natOfDigits digits = n ∧ n < bound := by
  have hdigits : (digits.isEmpty || !digits.all Char.isDigit) = true ↔ ¬AreDigits digits := by
    rw [AreDigits, not_and_or, Bool.or_eq_true, List.isEmpty_iff, Bool.not_eq_true', not_not,
      ← List.all_eq_true, Bool.not_eq_true]
  unfold natBelow?
  split
  · rename_i hnot
    simp [hdigits.mp hnot]
  · rename_i hall
    have hall : AreDigits digits := not_not.mp (mt hdigits.mpr hall)
    dsimp only
    split
    · rename_i hlt
      constructor
      · intro h
        obtain rfl := Option.some.inj h
        exact ⟨hall, rfl, hlt⟩
      · rintro ⟨-, rfl, -⟩
        rfl
    · rename_i hge
      simp only [reduceCtorEq, false_iff]
      rintro ⟨-, rfl, hlt⟩
      exact hge hlt

/-- What starts with a digit does not start with a minus. -/
theorem AreDigits.ne_minus {digits rest : List Char} (h : AreDigits digits) : digits ≠ '-' :: rest := by
  rintro rfl
  exact absurd (h.2 '-' List.mem_cons_self) (by decide)

theorem int64?_eq_some_iff {written : List Char} {n : Int64} :
    int64? written = some n ↔
      (AreDigits written ∧ n.toInt = Decimal.natOfDigits written) ∨
        ∃ digits, written = '-' :: digits ∧ AreDigits digits ∧
          n.toInt = -Decimal.natOfDigits digits := by
  -- Behind a minus one more number is in range than without it.
  have hlow := Int64.le_toInt n
  have hhigh := Int64.toInt_lt n
  have hhalf : UInt64.size / 2 = 2 ^ 63 := rfl
  unfold int64?
  split
  · rename_i digits
    have hmap : (do let m ← natBelow? (UInt64.size / 2 + 1) digits; pure (m : Int)) =
        (natBelow? (UInt64.size / 2 + 1) digits).map Nat.cast := by
      cases natBelow? (UInt64.size / 2 + 1) digits <;> rfl
    rw [hmap, Option.map_map, Option.map_eq_some_iff]
    simp only [natBelow?_eq_some_iff, hhalf]
    constructor
    · rintro ⟨m, ⟨hall, rfl, hlt⟩, rfl⟩
      refine .inr ⟨digits, rfl, hall, ?_⟩
      rw [Function.comp_apply]
      rw [Int64.toInt_ofInt_of_le (by omega) (by omega)]
    · rintro (⟨hall, -⟩ | ⟨other, hother, hall, hvalue⟩)
      · exact absurd rfl hall.ne_minus
      · obtain rfl := (List.cons.inj hother).2
        refine ⟨_, ⟨hall, rfl, by omega⟩, ?_⟩
        rw [Function.comp_apply, ← hvalue, Int64.ofInt_toInt]
  · rename_i hminus
    rw [Option.map_eq_some_iff]
    simp only [natBelow?_eq_some_iff, hhalf]
    constructor
    · rintro ⟨m, ⟨hall, rfl, hlt⟩, rfl⟩
      exact .inl ⟨hall, Int64.toInt_ofNat_of_lt hlt⟩
    · rintro (⟨hall, hvalue⟩ | ⟨digits, rfl, -, -⟩)
      · refine ⟨_, ⟨hall, rfl, by omega⟩, ?_⟩
        rw [← Int64.ofInt_eq_ofNat, ← hvalue, Int64.ofInt_toInt]
      · exact absurd rfl (hminus digits)

/-- No digit is a point. -/
theorem AreDigits.not_mem_point {digits : List Char} (h : AreDigits digits) : '.' ∉ digits :=
  fun hmem => absurd (h.2 '.' hmem) (by decide)

theorem numberValue_eq_ok_iff {written : String} {value : Property} :
    numberValue written = .ok value ↔ Denotes written value := by
  -- A point decides how the text is read. Digits hold none, so each way to denote belongs to one half.
  unfold numberValue
  dsimp only
  split
  · rename_i hpoint
    have hpoint : '.' ∈ written.toList := List.contains_iff_mem.mp hpoint
    constructor
    · intro h
      cases hread : Decimal.read? written.toList with
      | none => simp [hread] at h
      | some x =>
          rw [hread] at h
          obtain rfl := Except.ok.inj h
          exact .float hpoint hread
    · intro h
      cases h with
      | natural hdigits => exact absurd hpoint hdigits.not_mem_point
      | negative hminus hdigits =>
          rw [hminus] at hpoint
          exact absurd ((List.mem_cons.mp hpoint).resolve_left (by decide)) hdigits.not_mem_point
      | float _ hread => rw [hread]
  · rename_i hpoint
    have hpoint : '.' ∉ written.toList := fun hmem => hpoint (List.contains_iff_mem.mpr hmem)
    constructor
    · intro h
      cases hread : int64? written.toList with
      | none => simp [hread] at h
      | some n =>
          rw [hread] at h
          obtain rfl := Except.ok.inj h
          rcases int64?_eq_some_iff.mp hread with ⟨hdigits, hvalue⟩ | ⟨digits, hminus, hdigits, hvalue⟩
          · exact .natural hdigits hvalue
          · exact .negative hminus hdigits hvalue
    · intro h
      cases h with
      | natural hdigits hvalue => rw [int64?_eq_some_iff.mpr (.inl ⟨hdigits, hvalue⟩)]
      | negative hminus hdigits hvalue =>
          rw [int64?_eq_some_iff.mpr (.inr ⟨_, hminus, hdigits, hvalue⟩)]
      | float hmem => exact absurd hmem hpoint

/-! ## Parts are read exactly -/

section Exact

variable {α β : Type}

/-- The reader takes from the front what has a form, and takes it wherever what follows does not
belong to it. -/
structure Exact (forms : List TokenKind → α → Prop) (follows : TokenKind → Prop)
    (read : List Token → Outcome (α × List Token)) : Prop where
  sound : ∀ {tokens : List Token} {a : α} {rest : List Token}, read tokens = .ok (a, rest) →
    ∃ taken, tokens = taken ++ rest ∧ forms (taken.map Token.kind) a
  complete : ∀ {taken : List Token} {a : α} (rest : List Token), forms (taken.map Token.kind) a →
    follows (front rest) → read (taken ++ rest) = .ok (a, rest)

/-- A part that may be left out is read exactly if it may not follow itself. -/
theorem exact_readPart {keyword : Keyword} {forms : List TokenKind → α → Prop}
    {follows : TokenKind → Prop} {read : List Token → Outcome (α × List Token)}
    (h : Exact forms follows read) :
    Exact (FormsPart keyword forms) (fun token => follows token ∧ token ≠ .keyword keyword)
      (readPart keyword read) where
  sound {tokens a rest} hread := by
    unfold readPart at hread
    split at hread
    · rename_i hfront
      obtain ⟨⟨b, after⟩, hb, hpair⟩ := bind_eq_ok.mp hread
      obtain ⟨rfl, rfl⟩ : some b = a ∧ after = rest := Prod.mk.inj (Except.ok.inj hpair)
      cases tokens with
      | nil => cases hfront
      | cons first others =>
          obtain ⟨taken, rfl, hforms⟩ := h.sound hb
          refine ⟨first :: taken, rfl, ?_⟩
          rw [List.map_cons, show first.kind = .keyword keyword from hfront]
          exact .present hforms
    · obtain ⟨rfl, rfl⟩ := Prod.mk.inj (Except.ok.inj hread)
      exact ⟨[], rfl, .absent⟩
  complete {taken a} rest hforms hfollows := by
    cases taken with
    | nil =>
        -- Where the part is left out, what follows must not look like it.
        obtain rfl : a = none := by cases hforms; rfl
        rw [List.nil_append, readPart, if_neg hfollows.2]
    | cons first others =>
        rw [List.map_cons] at hforms
        generalize hkind : first.kind = kind at hforms
        cases hforms with
        | present hothers =>
            have hread := h.complete rest hothers hfollows.1
            have hfront : front (first :: others ++ rest) = .keyword keyword := hkind
            rw [readPart, if_pos hfront]
            exact bind_eq_ok.mpr ⟨_, hread, rfl⟩

end Exact

theorem readValue_eq_ok_iff (finish : Nat) {tokens rest : List Token} {value : Property} :
    readValue finish tokens = .ok (value, rest) ↔
      ∃ token, tokens = token :: rest ∧ FormsValue token.kind value := by
  constructor
  · intro h
    unfold readValue at h
    split at h
    · rename_i written position others
      cases hvalue : numberValue written with
      | error problem => simp [hvalue, problemAt] at h
      | ok v =>
          rw [hvalue] at h
          obtain ⟨rfl, rfl⟩ := Prod.mk.inj (Except.ok.inj h)
          exact ⟨_, rfl, .number (numberValue_eq_ok_iff.mp hvalue)⟩
    · obtain ⟨rfl, rfl⟩ := Prod.mk.inj (Except.ok.inj h)
      exact ⟨_, rfl, .text _⟩
    · obtain ⟨rfl, rfl⟩ := Prod.mk.inj (Except.ok.inj h)
      exact ⟨_, rfl, .word _⟩
    · cases h
  · rintro ⟨⟨kind, position⟩, rfl, hforms⟩
    cases hforms with
    | number hdenotes =>
        rw [readValue, numberValue_eq_ok_iff.mpr hdenotes]
    | text => rfl
    | word => rfl

/-- A condition ends by itself, whatever follows. -/
theorem exact_readCondition (finish : Nat) :
    Exact FormsCondition (fun _ => True) (readCondition finish) where
  sound {tokens c rest} hread := by
    unfold readCondition at hread
    split at hread
    · rename_i kind position others
      unfold readTarget at hread
      split at hread
      · obtain ⟨rfl, rfl⟩ := Prod.mk.inj (Except.ok.inj hread)
        exact ⟨[_, _], rfl, .relation _ _⟩
      · cases hread
    · cases hread
    · rename_i name position others
      unfold readComparison at hread
      split at hread
      · obtain ⟨⟨value, after⟩, hvalue, hpair⟩ := bind_eq_ok.mp hread
        obtain ⟨rfl, rfl⟩ := Prod.mk.inj (Except.ok.inj hpair)
        obtain ⟨token, rfl, hforms⟩ := (readValue_eq_ok_iff finish).mp hvalue
        exact ⟨[_, _, token], rfl, .comparison _ _ hforms⟩
      · cases hread
    · cases hread
  complete {taken c} rest hforms _ := by
    generalize hkinds : taken.map Token.kind = kinds at hforms
    cases hforms with
    | comparison name op hvalue =>
        -- A comparison is three tokens, and a relation is two.
        rcases taken with _ | ⟨⟨first, _⟩, _ | ⟨⟨second, _⟩, _ | ⟨third, _ | _⟩⟩⟩ <;> cases hkinds
        have hread : readValue finish (third :: rest) = .ok (_, rest) :=
          (readValue_eq_ok_iff finish).mpr ⟨third, rfl, hvalue⟩
        exact bind_eq_ok.mpr ⟨_, hread, rfl⟩
    | relation kind target =>
        rcases taken with _ | ⟨⟨first, _⟩, _ | ⟨⟨second, _⟩, _ | _⟩⟩ <;> cases hkinds
        rfl

/-! ## Conditions -/

theorem connective?_eq_some_iff {token : TokenKind} {connective : Connective} :
    connective? token = some connective ↔ token = .keyword connective.keyword := by
  cases connective <;> constructor <;> intro h
  all_goals first
    | (subst h; rfl)
    | (unfold connective? at h; split at h <;> first | rfl | cases h)

/-- No more conditions than tokens. -/
theorem FormsMore.length_le {tokens : List TokenKind} {more : List (Connective × Condition)}
    (h : FormsMore tokens more) : more.length ≤ tokens.length := by
  induction h with
  | nil => exact Nat.le_refl _
  | cons connective first rest ih =>
      simp only [List.length_cons, List.length_append]
      omega

theorem readMore_sound {finish : Nat} {bound : Nat} {tokens rest : List Token}
    {more : List (Connective × Condition)} (h : readMore finish bound tokens = .ok (more, rest)) :
    ∃ taken, tokens = taken ++ rest ∧ FormsMore (taken.map Token.kind) more := by
  induction bound generalizing tokens more with
  | zero =>
      obtain ⟨rfl, rfl⟩ := Prod.mk.inj (Except.ok.inj h)
      exact ⟨[], rfl, .nil⟩
  | succ bound ih =>
      rw [readMore] at h
      cases hfront : connective? (front tokens) with
      | none =>
          rw [hfront] at h
          obtain ⟨rfl, rfl⟩ := Prod.mk.inj (Except.ok.inj h)
          exact ⟨[], rfl, .nil⟩
      | some connective =>
          rw [hfront] at h
          obtain ⟨⟨c, after⟩, hc, h⟩ := bind_eq_ok.mp h
          obtain ⟨⟨others, left⟩, hothers, hpair⟩ := bind_eq_ok.mp h
          obtain ⟨rfl, rfl⟩ := Prod.mk.inj (Except.ok.inj hpair)
          cases tokens with
          | nil => cases hfront
          | cons first tail =>
              have hkind : first.kind = _ := connective?_eq_some_iff.mp hfront
              obtain ⟨condition, rfl, hforms⟩ := (exact_readCondition finish).sound hc
              obtain ⟨taken, rfl, hmore⟩ := ih hothers
              refine ⟨first :: condition ++ taken, by simp, ?_⟩
              rw [List.map_append, List.map_cons, hkind]
              exact .cons connective hforms hmore

theorem readMore_complete (finish : Nat) {bound : Nat} {taken : List Token}
    {more : List (Connective × Condition)} (rest : List Token)
    (h : FormsMore (taken.map Token.kind) more) (hfollows : connective? (front rest) = none)
    (hbound : more.length ≤ bound) : readMore finish bound (taken ++ rest) = .ok (more, rest) := by
  induction bound generalizing taken more with
  | zero =>
      obtain rfl := List.eq_nil_of_length_eq_zero (Nat.le_zero.mp hbound)
      generalize hkinds : taken.map Token.kind = kinds at h
      cases h
      obtain rfl := List.map_eq_nil_iff.mp hkinds
      rfl
  | succ bound ih =>
      generalize hkinds : taken.map Token.kind = kinds at h
      cases h with
      | nil =>
          obtain rfl := List.map_eq_nil_iff.mp hkinds
          rw [List.nil_append, readMore, hfollows]
      | cons connective hfirst hrest =>
          obtain ⟨first, others, rfl, hfirstKind, hothers⟩ := List.map_eq_cons_iff.mp hkinds
          obtain ⟨condition, tail, rfl, rfl, rfl⟩ := List.map_eq_append_iff.mp hothers
          have hfront : connective? (front (first :: (condition ++ tail) ++ rest)) = some connective :=
            connective?_eq_some_iff.mpr hfirstKind
          -- A condition ends by itself, so what is still to be read does not disturb it.
          have hcondition := (exact_readCondition finish).complete (tail ++ rest) hfirst trivial
          have hmore := ih hrest (by simpa using hbound)
          rw [readMore, hfront]
          simp only [List.cons_append, List.tail_cons, List.append_assoc]
          exact bind_eq_ok.mpr ⟨_, hcondition, bind_eq_ok.mpr ⟨_, hmore, rfl⟩⟩

theorem exact_readConditions (finish : Nat) :
    Exact FormsConditions (fun token => connective? token = none) (readConditions finish) where
  sound {tokens cs rest} hread := by
    obtain ⟨⟨first, after⟩, hfirst, h⟩ := bind_eq_ok.mp hread
    obtain ⟨⟨more, left⟩, hmore, hpair⟩ := bind_eq_ok.mp h
    obtain ⟨rfl, rfl⟩ := Prod.mk.inj (Except.ok.inj hpair)
    obtain ⟨condition, rfl, hcondition⟩ := (exact_readCondition finish).sound hfirst
    obtain ⟨taken, rfl, htaken⟩ := readMore_sound hmore
    exact ⟨condition ++ taken, by simp, List.map_append ▸ .mk hcondition htaken⟩
  complete {taken cs} rest hforms hfollows := by
    generalize hkinds : taken.map Token.kind = kinds at hforms
    cases hforms with
    | mk hfirst hmore =>
        obtain ⟨condition, tail, rfl, rfl, rfl⟩ := List.map_eq_append_iff.mp hkinds
        -- Each further condition takes tokens, so as many rounds as there are tokens suffice.
        have hlength := hmore.length_le
        rw [List.length_map] at hlength
        have hcondition := (exact_readCondition finish).complete (tail ++ rest) hfirst trivial
        have hrest : readMore finish (tail ++ rest).length (tail ++ rest) = .ok (_, rest) :=
          readMore_complete finish rest hmore hfollows (by rw [List.length_append]; omega)
        rw [List.append_assoc, readConditions]
        exact bind_eq_ok.mpr ⟨_, hcondition, bind_eq_ok.mpr ⟨_, hrest, rfl⟩⟩

/-! ## Queries -/

theorem exact_readFind (finish : Nat) :
    Exact FormsFind (fun token => token ≠ .keyword .as) (readFind finish) where
  sound {tokens found rest} hread := by
    unfold readFind at hread
    split at hread
    · split at hread
      · split at hread
        · obtain ⟨rfl, rfl⟩ := Prod.mk.inj (Except.ok.inj hread)
          exact ⟨[_, _, _, _], rfl, .named _ _⟩
        · cases hread
      · obtain ⟨rfl, rfl⟩ := Prod.mk.inj (Except.ok.inj hread)
        exact ⟨[_, _], rfl, .plain _⟩
      · cases hread
    · cases hread
  complete {taken found} rest hforms hfollows := by
    generalize hkinds : taken.map Token.kind = kinds at hforms
    cases hforms with
    | plain kind =>
        rcases taken with _ | ⟨⟨first, _⟩, _ | ⟨⟨second, _⟩, _ | _⟩⟩ <;> cases hkinds
        -- AS does not follow, so there is no alias to read.
        rcases rest with _ | ⟨⟨next, position⟩, rest⟩
        · rfl
        · simp only [readFind, List.cons_append, List.nil_append]
          split
          · rename_i heq
            cases heq
            exact absurd rfl hfollows
          · rename_i heq
            cases heq
            rfl
          · rename_i hno
            exact absurd rfl (hno _ _ _)
    | named kind asName =>
        rcases taken with _ | ⟨⟨first, _⟩, _ | ⟨⟨second, _⟩, _ | ⟨⟨third, _⟩, _ | ⟨⟨fourth, _⟩, _ | _⟩⟩⟩⟩ <;>
          cases hkinds
        rfl

theorem exact_readCount (finish : Nat) (clause : Keyword) :
    Exact FormsCount (fun _ => True) (readCount finish clause) where
  sound {tokens n rest} hread := by
    unfold readCount at hread
    split at hread
    · rename_i written position others
      cases hcount : natBelow? UInt64.size written.toList with
      | none => simp [hcount, problemAt] at hread
      | some m =>
          rw [hcount] at hread
          obtain ⟨rfl, rfl⟩ := Prod.mk.inj (Except.ok.inj hread)
          obtain ⟨hdigits, hvalue, hfits⟩ := natBelow?_eq_some_iff.mp hcount
          exact ⟨[_], rfl, .mk ⟨hdigits, hvalue, hfits⟩⟩
    · cases hread
  complete {taken n} rest hforms _ := by
    generalize hkinds : taken.map Token.kind = kinds at hforms
    cases hforms with
    | mk h =>
        rcases taken with _ | ⟨⟨first, _⟩, _ | _⟩ <;> cases hkinds
        rw [List.singleton_append, readCount, natBelow?_eq_some_iff.mpr ⟨h.digits, h.value, h.fits⟩]

/-- A part is announced by its reserved word, and a part that is left out by what follows it. -/
theorem FormsPart.front_append {α : Type} {keyword : Keyword} {forms : List TokenKind → α → Prop}
    {tokens : List Token} {a : Option α} (h : FormsPart keyword forms (tokens.map Token.kind) a)
    (rest : List Token) :
    front (tokens ++ rest) = .keyword keyword ∨ front (tokens ++ rest) = front rest := by
  generalize hkinds : tokens.map Token.kind = kinds at h
  cases h with
  | absent =>
      obtain rfl := List.map_eq_nil_iff.mp hkinds
      exact .inr rfl
  | present _ =>
      obtain ⟨first, others, rfl, hfirst, -⟩ := List.map_eq_cons_iff.mp hkinds
      exact .inl hfirst

/-- Tokens are read as the query that they form. -/
theorem ofTokens_eq_ok_iff (finish : Nat) {tokens : List Token} {q : Query} :
    ofTokens finish tokens = .ok q ↔ Forms (tokens.map Token.kind) q := by
  constructor
  · intro h
    unfold ofTokens at h
    split at h
    · cases h
    · obtain ⟨⟨⟨kind, asName⟩, afterFind⟩, hfind, h⟩ := bind_eq_ok.mp h
      obtain ⟨⟨conditions, afterWhere⟩, hwhere, h⟩ := bind_eq_ok.mp h
      obtain ⟨⟨limit, afterLimit⟩, hlimit, h⟩ := bind_eq_ok.mp h
      obtain ⟨⟨offset, rest⟩, hoffset, h⟩ := bind_eq_ok.mp h
      dsimp only at h
      split at h
      · rename_i hrest
        obtain rfl := List.isEmpty_iff.mp hrest
        obtain rfl := Except.ok.inj h
        obtain ⟨find, rfl, findForms⟩ := (exact_readFind finish).sound hfind
        obtain ⟨wheres, rfl, whereForms⟩ :=
          (exact_readPart (exact_readConditions finish)).sound hwhere
        obtain ⟨limits, rfl, limitForms⟩ :=
          (exact_readPart (exact_readCount finish .limit)).sound hlimit
        obtain ⟨offsets, rfl, offsetForms⟩ :=
          (exact_readPart (exact_readCount finish .offset)).sound hoffset
        have hforms := Forms.mk findForms whereForms limitForms offsetForms
        simpa only [List.map_append, List.append_assoc, List.append_nil] using hforms
      · cases h
  · intro h
    generalize hkinds : tokens.map Token.kind = kinds at h
    cases h with
    | mk hfind hwhere hlimit hoffset =>
        obtain ⟨_, offsets, rfl, hlimits, rfl⟩ := List.map_eq_append_iff.mp hkinds
        obtain ⟨_, limits, rfl, hwheres, rfl⟩ := List.map_eq_append_iff.mp hlimits
        obtain ⟨find, wheres, rfl, rfl, rfl⟩ := List.map_eq_append_iff.mp hwheres
        -- What each part may be followed by, from the last to the first.
        have hlast : front (offsets ++ []) = .keyword .offset ∨ front (offsets ++ []) = .finish :=
          hoffset.front_append []
        rw [List.append_nil] at hlast
        have hmiddle := hlimit.front_append offsets
        have hfirst := hwhere.front_append (limits ++ offsets)
        have hreadFind := (exact_readFind finish).complete (wheres ++ (limits ++ offsets)) hfind
          (by rcases hfirst with h | h <;> rcases hmiddle with h' | h' <;> rcases hlast with h'' | h'' <;>
                simp [h, h', h''])
        have hreadWhere := (exact_readPart (exact_readConditions finish)).complete
          (limits ++ offsets) hwhere
          (by rcases hmiddle with h | h <;> rcases hlast with h' | h' <;> simp [h, h', connective?])
        have hreadLimit := (exact_readPart (exact_readCount finish .limit)).complete offsets hlimit
          (by rcases hlast with h | h <;> simp [h])
        have hreadOffset := (exact_readPart (exact_readCount finish .offset)).complete [] hoffset
          (by simp [front])
        rw [List.append_nil] at hreadOffset
        have hempty : (find ++ wheres ++ limits ++ offsets).isEmpty = false := by
          cases find with
          | nil => cases hfind
          | cons _ _ => rfl
        rw [ofTokens, hempty]
        simp only [List.append_assoc]
        refine bind_eq_ok.mpr ⟨_, hreadFind, ?_⟩
        refine bind_eq_ok.mpr ⟨_, hreadWhere, ?_⟩
        refine bind_eq_ok.mpr ⟨_, hreadLimit, ?_⟩
        exact bind_eq_ok.mpr ⟨_, hreadOffset, rfl⟩

/-- **A text is read as a query exactly if its tokens form that query**: with the conditions and
connectives in their order, with the values and counts that its literals denote, and with CONTAINS alone
led into the node that is looked for. Tokens form one query at most. -/
theorem parse_eq_ok_iff :
    (∀ (text : String) (q : Query),
      parse text = .ok q ↔
        ∃ tokens, tokenize text = .ok tokens ∧ Forms (tokens.map Token.kind) q) ∧
    (∀ (kinds : List TokenKind) (q₁ q₂ : Query), Forms kinds q₁ → Forms kinds q₂ → q₁ = q₂) ∧
    ∀ kind : EdgeKind, relationDirection kind = .incoming ↔ kind = .contains := by
  refine ⟨fun text q => ?_, fun kinds q₁ q₂ h₁ h₂ => ?_, fun kind => by cases kind <;> decide⟩
  · rw [parse, bind_eq_ok]
    simp only [ofTokens_eq_ok_iff]
  · have hkinds : (kinds.map (Token.mk · 0)).map Token.kind = kinds := by
      rw [List.map_map]
      exact List.map_id' kinds
    rw [← hkinds] at h₁ h₂
    have hread₁ := (ofTokens_eq_ok_iff 0).mpr h₁
    rw [(ofTokens_eq_ok_iff 0).mpr h₂] at hread₁
    exact (Except.ok.inj hread₁).symm

/-- Words in small letters, LIKE as an operator, and a condition of either form. -/
theorem parse_small_letters :
    ∃ tokens q,
      tokenize "find function where name like 'main' or contains 'a.py' limit 10" = .ok tokens ∧
      parse "find function where name like 'main' or contains 'a.py' limit 10" = .ok q ∧
      (q.conditionList.length = 2 ∧ q.limit = some 10) ∧
      ∀ other, Forms (tokens.map Token.kind) other → other = q := by
  have htokens : tokenize "find function where name like 'main' or contains 'a.py' limit 10" =
      .ok
        [⟨.keyword .find, 0⟩, ⟨.identifier "function", 5⟩, ⟨.keyword .where, 14⟩,
          ⟨.identifier "name", 20⟩, ⟨.operator .like, 25⟩, ⟨.text "main", 30⟩, ⟨.keyword .or, 37⟩,
          ⟨.keyword (.relation .contains), 40⟩, ⟨.text "a.py", 49⟩, ⟨.keyword .limit, 56⟩,
          ⟨.number "10", 62⟩] :=
    toOption_eq_some.mp (by decide +kernel)
  have hcount : Counts "10" 10 := ⟨⟨by decide, List.all_eq_true.mp rfl⟩, by decide +kernel, by decide⟩
  have hforms := Forms.mk (.plain "function")
    (.present (.mk (.comparison "name" .like (.text "main"))
      (.cons .or (.relation .contains "a.py") .nil)))
    (.present (.mk hcount)) .absent
  exact ⟨_, _, htokens, (parse_eq_ok_iff.1 _ _).mpr ⟨_, htokens, hforms⟩, ⟨rfl, rfl⟩,
    fun other hother => parse_eq_ok_iff.2.1 _ _ _ hother hforms⟩

end ProgramGraph.Query
