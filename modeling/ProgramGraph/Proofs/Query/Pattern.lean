import ProgramGraph.Proofs.Query.Lexing

set_option autoImplicit false

/-! # The pattern of tokens

A pattern matches fronts of a text, and tries them in an order: of two alternatives the left one first,
and of a repetition as much as there is, which is then given back bit by bit. Its match is the first one
of these (`Pattern.match?`). The pattern of tokens has eight alternatives, each of which marks its match
(`Group`). The leftmost one that matches is taken, and what the lexer finds is just that (`finds_lexeme`),
although it never tries anything twice: a text ends at the first mark like its own, digits are followed
by something that may be left out, and nothing follows any other repetition.
-/

namespace ProgramGraph.Query

open ProgramGraph.Text

/-! ## Matching -/

/-- A pattern for the front of a text. -/
inductive Pattern where
  | nothing
  /-- One character of a class. -/
  | one (accepts : Char → Bool)
  /-- Any number of characters of a class, as many as possible. -/
  | many (accepts : Char → Bool)
  | andThen (first second : Pattern)
  /-- The first pattern, or else the second. -/
  | orElse (first second : Pattern)

namespace Pattern

/-- The numbers of characters of a class that can be taken, in descending order. -/
def repetitions (accepts : Char → Bool) : List Char → List Nat
  | [] => [0]
  | c :: rest => if accepts c then (repetitions accepts rest).map (1 + ·) ++ [0] else [0]

/-- The lengths of the fronts that match, in the order in which they are tried. -/
def lengths : Pattern → List Char → List Nat
  | .nothing, _ => [0]
  | .one _, [] => []
  | .one accepts, c :: _ => if accepts c then [1] else []
  | .many accepts, chars => repetitions accepts chars
  | .andThen first second, chars =>
      (first.lengths chars).flatMap fun n => (second.lengths (chars.drop n)).map (n + ·)
  | .orElse first second, chars => first.lengths chars ++ second.lengths chars

/-- The length of the front that is matched first. -/
def match? (p : Pattern) (chars : List Char) : Option Nat := (p.lengths chars).head?

/-- The character itself. -/
def char (c : Char) : Pattern := .one (· = c)

/-- A run of characters of a class, at least one. -/
def run (accepts : Char → Bool) : Pattern := (one accepts).andThen (many accepts)

/-- The pattern, if it matches. -/
def optional (p : Pattern) : Pattern := p.orElse .nothing

variable {accepts : Char → Bool} {p : Pattern}

theorem match?_def (p : Pattern) (chars : List Char) : p.match? chars = (p.lengths chars).head? := rfl

theorem lengths_nothing (chars : List Char) : nothing.lengths chars = [0] := rfl

theorem lengths_one_cons (accepts : Char → Bool) (c : Char) (rest : List Char) :
    (one accepts).lengths (c :: rest) = if accepts c then [1] else [] := rfl

theorem lengths_many_nil (accepts : Char → Bool) : (many accepts).lengths [] = [0] := rfl

theorem lengths_many_cons (accepts : Char → Bool) (c : Char) (rest : List Char) :
    (many accepts).lengths (c :: rest) =
      if accepts c then ((many accepts).lengths rest).map (1 + ·) ++ [0] else [0] := rfl

theorem lengths_andThen (p q : Pattern) (chars : List Char) :
    (p.andThen q).lengths chars = (p.lengths chars).flatMap fun n => (q.lengths (chars.drop n)).map (n + ·) := rfl

theorem lengths_orElse (p q : Pattern) (chars : List Char) :
    (p.orElse q).lengths chars = p.lengths chars ++ q.lengths chars := rfl

theorem match?_one_cons (accepts : Char → Bool) (c : Char) (rest : List Char) :
    (one accepts).match? (c :: rest) = if accepts c then some 1 else none := by
  rw [match?_def, lengths_one_cons]
  split <;> rfl

theorem match?_orElse (p q : Pattern) (chars : List Char) :
    (p.orElse q).match? chars = (p.match? chars).or (q.match? chars) :=
  List.head?_append

theorem match?_optional (p : Pattern) (chars : List Char) :
    p.optional.match? chars = (p.match? chars).or (some 0) :=
  match?_orElse p nothing chars

theorem lengths_andThen_assoc (p q r : Pattern) (chars : List Char) :
    ((p.andThen q).andThen r).lengths chars = (p.andThen (q.andThen r)).lengths chars := by
  simp only [lengths_andThen, List.flatMap_assoc, List.flatMap_map, List.map_flatMap, List.map_map,
    List.drop_drop, Function.comp_def, Nat.add_assoc]

/-- What may be left out is left out if what follows it does not match otherwise. -/
theorem match?_optional_andThen (p q : Pattern) (chars : List Char) :
    (p.optional.andThen q).match? chars = ((p.andThen q).match? chars).or (q.match? chars) := by
  have hlengths : (p.optional.andThen q).lengths chars = (p.andThen q).lengths chars ++ q.lengths chars := by
    rw [lengths_andThen, Pattern.optional, lengths_orElse, lengths_nothing, List.flatMap_append, lengths_andThen]
    simp
  rw [match?_def, hlengths, List.head?_append]
  rfl

theorem match?_one_andThen_cons (accepts : Char → Bool) (p : Pattern) (c : Char) (rest : List Char) :
    ((one accepts).andThen p).match? (c :: rest) =
      if accepts c then (p.match? rest).map (1 + ·) else none := by
  rw [match?_def, lengths_andThen, lengths_one_cons]
  split
  · simp [match?_def]
  · rfl

theorem lengths_many_andThen_cons (accepts : Char → Bool) (p : Pattern) (c : Char) (rest : List Char) :
    ((many accepts).andThen p).lengths (c :: rest) =
      if accepts c then (((many accepts).andThen p).lengths rest).map (1 + ·) ++ p.lengths (c :: rest)
      else p.lengths (c :: rest) := by
  rw [lengths_andThen, lengths_andThen, lengths_many_cons]
  split
  · simp [List.flatMap_map, List.map_flatMap, Function.comp_def, Nat.add_assoc, Nat.add_comm 1]
  · simp

theorem match?_many_andThen_nil (accepts : Char → Bool) (p : Pattern) :
    ((many accepts).andThen p).match? [] = p.match? [] := by
  simp [match?_def, lengths_andThen, lengths_many_nil]

/-- What is repeated is matched once more, or else given back. -/
theorem match?_many_andThen_cons (accepts : Char → Bool) (p : Pattern) (c : Char) (rest : List Char) :
    ((many accepts).andThen p).match? (c :: rest) =
      if accepts c then ((((many accepts).andThen p).match? rest).map (1 + ·)).or (p.match? (c :: rest))
      else p.match? (c :: rest) := by
  simp only [match?_def, lengths_many_andThen_cons]
  split
  · rw [List.head?_append, List.head?_map]
  · rfl

/-- Nothing is given back if what follows always matches. -/
theorem match?_many_andThen (hp : ∀ chars, (p.match? chars).isSome = true) (chars : List Char) :
    ((many accepts).andThen p).match? chars =
      (p.match? (chars.dropWhile accepts)).map ((chars.takeWhile accepts).length + ·) := by
  induction chars with
  | nil => rw [match?_many_andThen_nil]; simp
  | cons c rest ih =>
      rw [match?_many_andThen_cons]
      split
      · rename_i hc
        obtain ⟨n, hn⟩ := Option.isSome_iff_exists.mp (hp (rest.dropWhile accepts))
        rw [ih, List.takeWhile_cons_of_pos hc, List.dropWhile_cons_of_pos hc, hn]
        simp only [Option.map_some, Option.some_or, List.length_cons]
        rw [← Nat.add_assoc, Nat.add_comm 1]
      · rename_i hc
        rw [List.takeWhile_cons_of_neg hc, List.dropWhile_cons_of_neg hc]
        simp

theorem match?_many (accepts : Char → Bool) (chars : List Char) :
    (many accepts).match? chars = some (chars.takeWhile accepts).length := by
  have hend : ((many accepts).andThen nothing).match? chars = (many accepts).match? chars := by
    simp [match?_def, lengths_andThen, lengths_nothing, List.flatMap_singleton']
  rw [← hend, match?_many_andThen fun _ => rfl]
  rfl

theorem match?_run_cons (accepts : Char → Bool) (c : Char) (rest : List Char) :
    (run accepts).match? (c :: rest) =
      if accepts c then some ((rest.takeWhile accepts).length + 1) else none := by
  rw [run, match?_one_andThen_cons, match?_many, Option.map_some, Nat.add_comm]

/-- A run is matched as far as it goes if what follows always matches. -/
theorem match?_run_andThen (hp : ∀ chars, (p.match? chars).isSome = true) (chars : List Char) :
    ((run accepts).andThen p).match? chars =
      if (chars.takeWhile accepts).isEmpty then none
      else (p.match? (chars.dropWhile accepts)).map ((chars.takeWhile accepts).length + ·) := by
  rw [match?_def, run, lengths_andThen_assoc]
  cases chars with
  | nil => rfl
  | cons c rest =>
      show ((one accepts).andThen ((many accepts).andThen p)).match? (c :: rest) = _
      rw [match?_one_andThen_cons, match?_many_andThen hp]
      by_cases hc : accepts c = true
      · rw [List.takeWhile_cons_of_pos hc, List.dropWhile_cons_of_pos hc, if_pos hc, Option.map_map]
        simp only [List.isEmpty_cons, Bool.false_eq_true, if_false, List.length_cons]
        refine congrArg (Option.map · _) (funext fun n => ?_)
        show 1 + (_ + n) = _
        omega
      · rw [List.takeWhile_cons_of_neg hc, if_neg hc]
        rfl

end Pattern

/-! ## The alternatives -/

/-- What an alternative of the pattern matches. -/
inductive Group where
  | text
  | number
  | operator
  | word
  | leftParen
  | rightParen
  | blank
  | mismatch
  deriving Repr, DecidableEq

namespace Pattern

/-- A text between two of the marks, which it does not hold. -/
def inQuotes (mark : Char) : Pattern := (char mark).andThen ((many (· ≠ mark)).andThen (char mark))

/-- A point with digits behind it. -/
def fraction : Pattern := (char '.').andThen (run isDecimalDigit)

/-- Two characters. -/
def pair (first second : Char) : Pattern := (char first).andThen (char second)

end Pattern

namespace Group

open Pattern

/-- The alternative of the pattern. -/
def pattern : Group → Pattern
  | .text => (inQuotes '\'').orElse (inQuotes '"')
  | .number => (char '-').optional.andThen ((run isDecimalDigit).andThen fraction.optional)
  | .operator => (pair '>' '=').orElse <| (pair '<' '=').orElse <| (pair '!' '=').orElse <|
      (pair '<' '>').orElse (.one fun c => c = '>' || c = '<' || c = '=')
  | .word => (one startsWord).andThen (many continuesWord)
  | .leftParen => char '('
  | .rightParen => char ')'
  | .blank => run isBlank
  | .mismatch => .one (· ≠ '\n')

/-- The alternatives from left to right. -/
def all : List Group := [.text, .number, .operator, .word, .leftParen, .rightParen, .blank, .mismatch]

/-- The kind of the token that comes of a match. Blanks give none. -/
def kind? : Group → List Char → Option TokenKind
  | .text, span => some (.text (String.ofList span.tail.dropLast))
  | .number, span => some (.number (String.ofList span))
  | .operator, ['>', '='] => some (.operator (.compare .ge))
  | .operator, ['<', '='] => some (.operator (.compare .le))
  | .operator, ['!', '='] | .operator, ['<', '>'] => some (.operator (.compare .ne))
  | .operator, ['>'] => some (.operator (.compare .gt))
  | .operator, ['<'] => some (.operator (.compare .lt))
  | .operator, ['='] => some (.operator (.compare .eq))
  | .operator, _ => none
  | .word, span => some (wordToken (String.ofList span))
  | .leftParen, _ => some .leftParen
  | .rightParen, _ => some .rightParen
  | .blank, _ | .mismatch, _ => none

end Group

/-- The leftmost alternative that matches in front of a text, with the length of its match. -/
def alternative? (chars : List Char) : Option (Group × Nat) :=
  Group.all.findSome? fun g => (g.pattern.match? chars).map (g, ·)

/-! ## The matches of the alternatives -/

section

open Pattern

variable {c : Char} {chars rest : List Char}

theorem body?_cons (mark c : Char) (rest : List Char) :
    body? mark (c :: rest) = if c = mark then some [] else (body? mark rest).map (c :: ·) := by
  by_cases hc : c = mark
  · simp [body?, hc]
  · have hne : ¬mark = c := fun h => hc h.symm
    cases hrest : rest.contains mark <;> simp_all [body?]

/-- A quoted text ends at the first mark like the one at its front. -/
theorem match?_inQuotes (mark c : Char) (rest : List Char) :
    (inQuotes mark).match? (c :: rest) =
      if c = mark then (body? mark rest).map (·.length + 2) else none := by
  have hbody : ∀ chars, ((many (· ≠ mark)).andThen (char mark)).match? chars =
      (body? mark chars).map (·.length + 1) := by
    intro chars
    induction chars with
    | nil => rfl
    | cons d more ih =>
        rw [match?_many_andThen_cons, ih, char, match?_one_cons, body?_cons]
        by_cases hd : d = mark
        · simp [hd]
        · simp [hd, Function.comp_def, Nat.add_comm 1]
  rw [inQuotes, char, match?_one_andThen_cons, ← char, hbody, Option.map_map]
  simp [Function.comp_def, Nat.add_comm 1]

theorem match?_fraction (chars : List Char) :
    fraction.optional.match? chars = some (fractionAt chars).length := by
  rw [match?_optional, fraction, char]
  cases chars with
  | nil => rfl
  | cons c rest =>
      rw [match?_one_andThen_cons]
      by_cases hc : c = '.'
      · subst hc
        cases rest with
        | nil => rfl
        | cons d more =>
            rw [match?_run_cons, fractionAt]
            -- A point alone is not taken. At least one digit must follow it.
            by_cases hd : isDecimalDigit d = true
            · simp [hd, Nat.add_comm 1]
            · simp [hd]
      · rw [if_neg (by simpa using hc), fractionAt.eq_def]
        split
        · rename_i hcons
          exact absurd (List.cons.inj hcons).1 hc
        · rfl

theorem match?_unsigned (chars : List Char) :
    ((run isDecimalDigit).andThen fraction.optional).match? chars = (unsigned? chars).map List.length := by
  rw [match?_run_andThen fun _ => by rw [match?_fraction]; rfl, match?_fraction, unsigned?]
  split
  · rfl
  · rw [Option.map_some, Option.map_some, List.length_append]

/-- A sign is given back if no digit follows it, but then no number is found at it either. -/
theorem match?_number (c : Char) (rest : List Char) :
    Group.number.pattern.match? (c :: rest) = (number? (c :: rest)).map List.length := by
  have hmatch : Group.number.pattern.match? (c :: rest) =
      (if c = '-' then ((unsigned? rest).map List.length).map (1 + ·) else none).or
        ((unsigned? (c :: rest)).map List.length) := by
    rw [Group.pattern, match?_optional_andThen, match?_unsigned, char, match?_one_andThen_cons, match?_unsigned]
    simp
  rw [hmatch, number?_cons]
  by_cases hc : c = '-'
  · have hnone : unsigned? (c :: rest) = none := by
      rw [unsigned?, hc]
      rfl
    rw [if_pos hc, if_pos hc, hnone]
    simp [Function.comp_def, Nat.add_comm 1]
  · rw [if_neg hc, if_neg hc]
    rfl

theorem match?_pair (first second c : Char) (rest : List Char) :
    (pair first second).match? (c :: rest) = if c = first ∧ rest.head? = some second then some 2 else none := by
  rw [pair, char, match?_one_andThen_cons, char]
  cases rest with
  | nil => simp [match?, lengths]
  | cons d more =>
      rw [match?_one_cons]
      by_cases hc : c = first <;> by_cases hd : d = second <;> simp [hc, hd]

theorem match?_operator (c : Char) (rest : List Char) :
    Group.operator.pattern.match? (c :: rest) = (sign? (c :: rest)).map Prod.snd := by
  simp only [Group.pattern, match?_orElse, match?_pair, match?_one_cons]
  generalize hsign : sign? (c :: rest) = found
  unfold sign? at hsign
  split at hsign
  case h_8 hge hle hne hother hgt hlt heq =>
    subst hsign
    cases rest <;> simp_all
  all_goals
    rename_i hcons
    obtain ⟨rfl, rfl⟩ := List.cons.inj hcons
    subst hsign
    simp_all [List.head?_eq_some_iff]

/-- What is found of an operator is what it is. -/
theorem kind?_operator {op : Comparison} {length : Nat} (h : sign? chars = some (op, length)) :
    Group.operator.kind? (chars.take length) = some (.operator (.compare op)) ∧ 0 < length ∧
      length ≤ chars.length := by
  unfold sign? at h
  split at h <;> cases h <;> simp [Group.kind?]

theorem match?_text (c : Char) (rest : List Char) :
    Group.text.pattern.match? (c :: rest) =
      (if c = '\'' || c = '"' then body? c rest else none).map (·.length + 2) := by
  rw [Group.pattern, match?_orElse, match?_inQuotes, match?_inQuotes]
  by_cases hsingle : c = '\''
  · simp [hsingle]
  · by_cases hdouble : c = '"' <;> simp [hsingle, hdouble]

theorem match?_word (c : Char) (rest : List Char) :
    Group.word.pattern.match? (c :: rest) =
      if startsWord c then some ((rest.takeWhile continuesWord).length + 1) else none := by
  rw [Group.pattern, match?_one_andThen_cons, match?_many, Option.map_some, Nat.add_comm]

theorem match?_char (mark c : Char) (rest : List Char) :
    (char mark).match? (c :: rest) = if c = mark then some 1 else none := by
  rw [char, match?_one_cons]
  simp

/-- The leftmost alternative is the first in the row that matches. -/
theorem alternative?_of (before : List Group) {after : List Group} {g : Group} {n : Nat}
    (hall : Group.all = before ++ g :: after) (hbefore : ∀ g' ∈ before, g'.pattern.match? chars = none)
    (hmatch : g.pattern.match? chars = some n) : alternative? chars = some (g, n) := by
  have hnone : before.findSome? (fun g => (g.pattern.match? chars).map (g, ·)) = none :=
    List.findSome?_eq_none_iff.mpr fun g' hg' => by rw [hbefore g' hg']; rfl
  rw [alternative?, hall, List.findSome?_append, hnone, List.findSome?_cons, hmatch]
  rfl

/-! ## What the lexer finds -/

theorem exists_of_body? {mark : Char} {body : List Char} (h : body? mark rest = some body) :
    ∃ after, rest = (body ++ [mark]) ++ after := by
  induction rest generalizing body with
  | nil => cases h
  | cons c rest ih =>
      rw [body?_cons] at h
      split at h
      · rename_i hc
        exact ⟨rest, by rw [← Option.some.inj h, hc]; rfl⟩
      · obtain ⟨more, hmore, rfl⟩ := Option.map_eq_some_iff.mp h
        obtain ⟨after, hafter⟩ := ih hmore
        exact ⟨after, congrArg (c :: ·) hafter⟩

theorem fractionAt_isPrefix (chars : List Char) : fractionAt chars <+: chars := by
  unfold fractionAt
  split
  · split
    · exact List.nil_prefix
    · exact (List.prefix_cons_inj _).mpr (List.takeWhile_prefix _)
  · exact List.nil_prefix

theorem isPrefix_of_unsigned? {written : List Char} (h : unsigned? chars = some written) :
    written <+: chars ∧ written ≠ [] := by
  unfold unsigned? at h
  split at h
  · cases h
  · rename_i hsome
    obtain rfl := Option.some.inj h
    refine ⟨?_, fun hnil => hsome (List.isEmpty_iff.mpr (List.append_eq_nil_iff.mp hnil).1)⟩
    have hfront := (List.prefix_append_right_inj (chars.takeWhile isDecimalDigit)).mpr
      (fractionAt_isPrefix (chars.dropWhile isDecimalDigit))
    rwa [List.takeWhile_append_dropWhile] at hfront

/-- A number stands at the front. -/
theorem isPrefix_of_number? {written : List Char} (h : number? (c :: rest) = some written) :
    written <+: c :: rest ∧ written ≠ [] := by
  rw [number?_cons] at h
  split at h
  · rename_i hc
    obtain ⟨more, hmore, rfl⟩ := Option.map_eq_some_iff.mp h
    exact ⟨hc ▸ (List.prefix_cons_inj _).mpr (isPrefix_of_unsigned? hmore).1, List.cons_ne_nil _ _⟩
  · exact isPrefix_of_unsigned? h

/-- A leftmost alternative, and what the lexer makes of it. -/
inductive Finds (c : Char) (rest : List Char) : Lexeme → Prop where
  | token {g : Group} {kind : TokenKind} {more : Nat} (hmore : more ≤ rest.length)
      (hfirst : alternative? (c :: rest) = some (g, more + 1))
      (hkind : g.kind? (c :: rest.take more) = some kind) : Finds c rest (.token kind more)
  | blank {more : Nat} (hmore : more ≤ rest.length)
      (hfirst : alternative? (c :: rest) = some (.blank, more + 1))
      (hall : ∀ d ∈ c :: rest.take more, isBlank d = true) : Finds c rest (.blank more)
  | mismatch (hfirst : alternative? (c :: rest) = some (.mismatch, 1)) : Finds c rest .mismatch

theorem take_length_takeWhile (test : Char → Bool) (chars : List Char) :
    chars.take (chars.takeWhile test).length = chars.takeWhile test :=
  (List.prefix_iff_eq_take.mp (List.takeWhile_prefix test)).symm

theorem Finds.text {body : List Char}
    (h : (if c = '\'' || c = '"' then body? c rest else none) = some body) :
    Finds c rest (.token (.text (String.ofList body)) (body.length + 1)) := by
  have hmatch := match?_text c rest
  rw [h] at hmatch
  have hbody : body? c rest = some body := by
    split at h
    · exact h
    · cases h
  obtain ⟨after, rfl⟩ := exists_of_body? hbody
  refine .token (g := .text) (by simp) (alternative?_of [] rfl (by simp) hmatch) ?_
  rw [List.take_left' (by simp), Group.kind?, List.tail_cons, List.dropLast_concat]

theorem Finds.number (htext : Group.text.pattern.match? (c :: rest) = none) {written : List Char}
    (h : number? (c :: rest) = some written) :
    Finds c rest (.token (.number (String.ofList written)) (written.length - 1)) := by
  obtain ⟨hwritten, hne⟩ := isPrefix_of_number? h
  obtain ⟨n, hn⟩ := Nat.exists_eq_add_one_of_ne_zero (List.length_pos_iff.mpr hne).ne'
  have hmatch : Group.number.pattern.match? (c :: rest) = some (n + 1) := by
    rw [match?_number, h, Option.map_some, hn]
  have htaken : c :: rest.take n = written := by
    rw [← List.take_succ_cons, ← hn, ← List.prefix_iff_eq_take.mp hwritten]
  have hmore : n + 1 ≤ rest.length + 1 := hn ▸ hwritten.length_le
  rw [hn, Nat.add_sub_cancel]
  refine .token (g := .number) (Nat.le_of_succ_le_succ hmore)
    (alternative?_of [.text] rfl (by simpa using htext) hmatch) ?_
  rw [htaken, Group.kind?]

theorem Finds.operator (hfront : ∀ g ∈ [Group.text, .number], g.pattern.match? (c :: rest) = none)
    {op : Comparison} {length : Nat} (h : sign? (c :: rest) = some (op, length)) :
    Finds c rest (.token (.operator (.compare op)) (length - 1)) := by
  have hmatch := match?_operator c rest
  rw [h] at hmatch
  obtain ⟨hkind, hpos, hbound⟩ := kind?_operator h
  obtain ⟨n, rfl⟩ := Nat.exists_eq_add_one_of_ne_zero hpos.ne'
  exact .token (g := .operator) (Nat.le_of_succ_le_succ hbound)
    (alternative?_of [.text, .number] rfl hfront hmatch) hkind

theorem Finds.word (hfront : ∀ g ∈ [Group.text, .number, .operator], g.pattern.match? (c :: rest) = none)
    (h : startsWord c = true) :
    Finds c rest (.token (wordToken (String.ofList (c :: rest.takeWhile continuesWord)))
      (rest.takeWhile continuesWord).length) := by
  have hmatch := match?_word c rest
  rw [if_pos h] at hmatch
  refine .token (g := .word) (List.takeWhile_prefix _).length_le
    (alternative?_of [.text, .number, .operator] rfl hfront hmatch) ?_
  rw [take_length_takeWhile, Group.kind?]

/-- **The lexer finds the leftmost alternative** that matches, and one always does. -/
theorem finds_lexeme (c : Char) (rest : List Char) : Finds c rest (lexeme c rest) := by
  have htext := match?_text c rest
  have hnumber := match?_number c rest
  have hoperator := match?_operator c rest
  have hword := match?_word c rest
  have hleft : Group.leftParen.pattern.match? (c :: rest) = _ := match?_char '(' c rest
  have hright : Group.rightParen.pattern.match? (c :: rest) = _ := match?_char ')' c rest
  have hblank : Group.blank.pattern.match? (c :: rest) = _ := match?_run_cons isBlank c rest
  unfold lexeme
  cases hbody : (if c = '\'' || c = '"' then body? c rest else none) with
  | some body => exact .text hbody
  | none =>
  rw [hbody] at htext
  cases hwritten : number? (c :: rest) with
  | some written => exact .number htext hwritten
  | none =>
  rw [hwritten] at hnumber
  cases hsign : sign? (c :: rest) with
  | some found => exact .operator (by simp [htext, hnumber]) hsign
  | none =>
  rw [hsign] at hoperator
  simp only
  split
  case isTrue hc => exact .word (by simp [htext, hnumber, hoperator]) hc
  case isFalse hc =>
  rw [if_neg hc] at hword
  split
  case isTrue hc =>
    rw [if_pos hc] at hleft
    exact .token (g := .leftParen) (Nat.zero_le _) (alternative?_of
      [.text, .number, .operator, .word] rfl (by simp [htext, hnumber, hoperator, hword]) hleft) rfl
  case isFalse hc =>
  rw [if_neg hc] at hleft
  split
  case isTrue hc =>
    rw [if_pos hc] at hright
    exact .token (g := .rightParen) (Nat.zero_le _) (alternative?_of
      [.text, .number, .operator, .word, .leftParen] rfl
      (by simp [htext, hnumber, hoperator, hword, hleft]) hright) rfl
  case isFalse hc =>
  rw [if_neg hc] at hright
  split
  case isTrue hc =>
    rw [if_pos hc] at hblank
    refine .blank (List.takeWhile_prefix _).length_le (alternative?_of
      [.text, .number, .operator, .word, .leftParen, .rightParen] rfl
      (by simp [htext, hnumber, hoperator, hword, hleft, hright]) hblank) ?_
    rw [take_length_takeWhile]
    exact List.forall_mem_cons.mpr ⟨hc, fun d hd => List.mem_takeWhile_imp hd⟩
  case isFalse hc =>
    rw [if_neg hc] at hblank
    -- A line break is blank, so the last alternative, which refuses it, matches here.
    have hbreak : c ≠ '\n' := fun h => hc (h ▸ by decide)
    refine .mismatch (alternative?_of
      [.text, .number, .operator, .word, .leftParen, .rightParen, .blank] rfl
      (by simp [htext, hnumber, hoperator, hword, hleft, hright, hblank]) ?_)
    rw [Group.pattern, match?_one_cons, if_pos (by simpa using hbreak)]

/-- A minus belongs to digits, a point does not without more of them; a mark that stays alone is refused. -/
example : alternative? "-5.x".toList = some (.number, 2) ∧ alternative? "<>1".toList = some (.operator, 2) ∧
    alternative? "'abc\n".toList = some (.mismatch, 1) := by decide +kernel

end

end ProgramGraph.Query
