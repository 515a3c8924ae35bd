import ProgramGraph.Proofs.Query.Readable

set_option autoImplicit false

/-! # Where a query is faulty

A text that is cut into tokens and is no query is refused at one of them (`parse_points_at_hopeless`): at the
first one with which no query can come of it. The tokens in front of it begin some query, and no query begins with
these and the token itself. The end of the text counts as a token, for a query may break off.

Every reader stops without having looked behind the token in front of it. What it says of some tokens, be it what
they form or where the fault is, it therefore says of all tokens that are alike up to this one (`Decides`). That
carries over from the parts to the whole. The readers of the parts are put together from readers of one token
(`readToken`), and a reader behind another one decides if both of them do (`Decides.andThen`).
-/

namespace ProgramGraph.Query

/-! ## Readers that decide -/

section Decides

variable {α β : Type} {finish : Nat} {forms forms' : List TokenKind → α → Prop}
  {read read' : List Token → Outcome (α × List Token)} {tokens : List Token}

/-- **The reader decides** at the token where it stops. It reads a form there, whatever stands behind that token;
or it is at fault there, where the tokens so far begin a form, and whatever stands behind that token is refused. -/
inductive Decides (finish : Nat) (forms : List TokenKind → α → Prop)
    (read : List Token → Outcome (α × List Token)) (tokens : List Token) : Prop where
  | reads (taken rest : List Token) (a : α) (split : tokens = taken ++ rest)
      (formed : forms (taken.map Token.kind) a)
      (stays : ∀ rest', front rest' = front rest → read (taken ++ rest') = .ok (a, rest'))
  | faults (before rest : List Token) (problem : QueryProblem) (split : tokens = before ++ rest)
      (fails : read tokens = problemAt finish rest problem)
      (begins : ∃ more a, forms (before.map Token.kind ++ more) a)
      (ends : ∀ rest', front rest' = front rest → ∃ failure, read (before ++ rest') = .error failure)

theorem Decides.of_eq (h : Decides finish forms read' tokens) (heq : ∀ tokens, read tokens = read' tokens) :
    Decides finish forms read tokens :=
  (funext heq : read = read') ▸ h

/-- Whatever is read, there is something to be read. -/
theorem Decides.exists_form (h : Decides finish forms read tokens) : ∃ kinds a, forms kinds a := by
  cases h with
  | reads taken rest a split formed => exact ⟨_, a, formed⟩
  | faults before rest problem split fails begins =>
      obtain ⟨more, a, hform⟩ := begins
      exact ⟨_, a, hform⟩

/-- A reader that passes a token over decides like the one that goes on behind it. -/
theorem Decides.behind (h : Decides finish forms read tokens) (first : Token)
    (hread : ∀ rest, read' (first :: rest) = read rest)
    (hforms : ∀ kinds a, forms kinds a → forms' (first.kind :: kinds) a) :
    Decides finish forms' read' (first :: tokens) := by
  cases h with
  | reads taken rest a split formed stays =>
      refine .reads (first :: taken) rest a (by rw [split, List.cons_append]) (hforms _ _ formed) ?_
      intro rest' hfront
      rw [List.cons_append, hread, stays rest' hfront]
  | faults before rest problem split fails begins ends =>
      obtain ⟨more, a, hform⟩ := begins
      refine .faults (first :: before) rest problem (by rw [split, List.cons_append])
        ((hread tokens).trans fails) ⟨more, a, hforms _ _ hform⟩ ?_
      intro rest' hfront
      rw [List.cons_append, hread]
      exact ends rest' hfront

/-- Nothing is read, and a value given. -/
def yields (a : α) (tokens : List Token) : Outcome (α × List Token) := .ok (a, tokens)

theorem decides_yields (a : α) (tokens : List Token) :
    Decides finish (fun kinds b => kinds = [] ∧ b = a) (yields a) tokens :=
  .reads [] tokens a rfl ⟨rfl, rfl⟩ fun _ _ => rfl

/-- One reader, and behind what it took another one. -/
def thenRead (read : List Token → Outcome (α × List Token)) (next : α → List Token → Outcome (β × List Token))
    (tokens : List Token) : Outcome (β × List Token) := do
  let (a, rest) ← read tokens
  next a rest

theorem thenRead_of_ok {next : α → List Token → Outcome (β × List Token)} {a : α} {rest : List Token}
    (h : read tokens = .ok (a, rest)) : thenRead read next tokens = next a rest := by
  rw [thenRead, h]
  rfl

theorem thenRead_of_error {next : α → List Token → Outcome (β × List Token)} {failure : Failure}
    (h : read tokens = .error failure) : thenRead read next tokens = .error failure := by
  rw [thenRead, h]
  rfl

/-- The token in front is the same if it is the same behind some tokens. -/
theorem front_append_congr (taken : List Token) {rest rest' : List Token} (h : front rest' = front rest) :
    front (taken ++ rest') = front (taken ++ rest) := by
  cases taken with
  | nil => exact h
  | cons first others => rfl

/-- **One reader behind another** decides if both do. The second one has to only where the first can have stopped. -/
theorem Decides.andThen {next : α → List Token → Outcome (β × List Token)}
    {formsNext : α → List TokenKind → β → Prop} {formsBoth : List TokenKind → β → Prop}
    (h : Decides finish forms read tokens)
    (hnext : ∀ a rest, rest.length ≤ tokens.length → Decides finish (formsNext a) (next a) rest)
    (hforms : ∀ first a second b, forms first a → formsNext a second b → formsBoth (first ++ second) b) :
    Decides finish formsBoth (thenRead read next) tokens := by
  cases h with
  | faults before rest problem split fails begins ends =>
      refine .faults before rest problem split (thenRead_of_error fails) ?_ ?_
      · obtain ⟨more, a, hform⟩ := begins
        obtain ⟨second, b, hsecond⟩ := (hnext a [] (Nat.zero_le _)).exists_form
        refine ⟨more ++ second, b, ?_⟩
        rw [← List.append_assoc]
        exact hforms _ a second b hform hsecond
      · intro rest' hfront
        obtain ⟨failure, hfailure⟩ := ends rest' hfront
        exact ⟨failure, thenRead_of_error hfailure⟩
  | reads taken rest a split formed stays =>
      have hread : read tokens = .ok (a, rest) := split ▸ stays rest rfl
      have hlength : rest.length ≤ tokens.length := by
        rw [split, List.length_append]
        omega
      -- What the second reader stops at is also what the first one sees, if it sees nothing of what the second takes.
      have hgoesOn : ∀ {before left left' : List Token}, rest = before ++ left → front left' = front left →
          thenRead read next (taken ++ before ++ left') = next a (before ++ left') := by
        intro before left left' hrest hfront
        rw [List.append_assoc]
        refine thenRead_of_ok (stays _ ?_)
        rw [hrest]
        exact front_append_congr before hfront
      cases hnext a rest hlength with
      | reads taken' left b split' formed' stays' =>
          refine .reads (taken ++ taken') left b (by rw [split, split', List.append_assoc]) ?_ ?_
          · rw [List.map_append]
            exact hforms _ a _ b formed formed'
          · intro left' hfront
            rw [hgoesOn split' hfront, stays' left' hfront]
      | faults before left problem split' fails' begins' ends' =>
          refine .faults (taken ++ before) left problem (by rw [split, split', List.append_assoc])
            ((thenRead_of_ok hread).trans fails') ?_ ?_
          · obtain ⟨more, b, hform⟩ := begins'
            refine ⟨more, b, ?_⟩
            rw [List.map_append, List.append_assoc]
            exact hforms _ a _ b formed hform
          · intro left' hfront
            rw [hgoesOn split' hfront]
            exact ends' left' hfront

/-- What is read is made into something else. -/
theorem Decides.map {formsBoth : List TokenKind → β → Prop} (h : Decides finish forms read tokens) (f : α → β)
    (hforms : ∀ kinds a, forms kinds a → formsBoth kinds (f a)) :
    Decides finish formsBoth (thenRead read fun a => yields (f a)) tokens := by
  refine h.andThen (fun a rest _ => decides_yields (f a) rest) ?_
  rintro kinds a _ _ hform ⟨rfl, rfl⟩
  rw [List.append_nil]
  exact hforms kinds a hform

/-! ## One token -/

/-- What single tokens mean, where it is a problem to meet one of the others. -/
abbrev Meaning (α : Type) := TokenKind → Except QueryProblem α

/-- One token is read as what it means, or it is a problem. -/
def readToken (finish : Nat) (meaning : Meaning α) (tokens : List Token) :
    Outcome (α × List Token) :=
  match meaning (front tokens) with
  | .ok a => .ok (a, tokens.tail)
  | .error problem => problemAt finish tokens problem

/-- One token with a meaning. -/
def Means (meaning : Meaning α) (kinds : List TokenKind) (a : α) : Prop :=
  ∃ kind, kinds = [kind] ∧ meaning kind = .ok a

/-- **A reader of one token decides**: if some token has a meaning, and the end of the text has none. -/
theorem decides_readToken (finish : Nat) (meaning : Meaning α) (hsome : ∃ kind a, meaning kind = .ok a)
    (hfinish : ∃ problem, meaning .finish = .error problem) (tokens : List Token) :
    Decides finish (Means meaning) (readToken finish meaning) tokens := by
  cases hmeaning : meaning (front tokens) with
  | ok a =>
      cases tokens with
      | nil =>
          obtain ⟨problem, hproblem⟩ := hfinish
          exact absurd (hmeaning.symm.trans hproblem) (by simp)
      | cons first rest =>
          refine .reads [first] rest a rfl ⟨first.kind, rfl, hmeaning⟩ ?_
          intro rest' _
          show readToken finish meaning (first :: rest') = _
          have hfirst : meaning (front (first :: rest')) = .ok a := hmeaning
          rw [readToken, hfirst]
          rfl
  | error problem =>
      obtain ⟨kind, a, hkind⟩ := hsome
      -- What goes wrong depends on the token at the front only.
      have hfails : ∀ rest', front rest' = front tokens →
          readToken finish meaning rest' = problemAt finish rest' problem := by
        intro rest' hfront
        rw [readToken, hfront, hmeaning]
      exact .faults [] tokens problem rfl (hfails tokens rfl) ⟨[kind], a, kind, rfl, hkind⟩
        fun rest' hfront => ⟨_, hfails rest' hfront⟩

/-! ## A part behind its word -/

/-- A part that may be left out is decided on if it is decided on behind its word. -/
theorem Decides.part {keyword : Keyword} (h : ∀ rest, Decides finish forms read rest) (tokens : List Token) :
    Decides finish (FormsPart keyword forms) (readPart keyword read) tokens := by
  by_cases hfront : front tokens = .keyword keyword
  · cases tokens with
    | nil => cases hfront
    | cons first rest =>
        have hfirst : first.kind = .keyword keyword := hfront
        have hsome : Decides finish (fun kinds => FormsPart keyword forms (first.kind :: kinds))
            (thenRead read fun a => yields (some a)) rest := by
          refine (h rest).map some fun kinds a hform => ?_
          rw [hfirst]
          exact .present hform
        refine hsome.behind first (fun left => ?_) fun _ _ hform => hform
        have hleft : front (first :: left) = .keyword keyword := hfront
        rw [readPart, if_pos hleft]
        rfl
  · -- Without the word nothing is taken, whatever stands there instead.
    refine .reads [] tokens none rfl .absent fun rest' hfront' => ?_
    rw [List.nil_append, readPart, if_neg (hfront' ▸ hfront)]

end Decides

/-! ## What single tokens mean -/

namespace Meaning

def find : Meaning Unit
  | .keyword .find => .ok ()
  | _ => .error .findExpected

/-- A word that is not reserved, or else a given problem. -/
def word (problem : QueryProblem) : Meaning String
  | .identifier s => .ok s
  | _ => .error problem

/-- What a condition starts with: the word for a relation, or the name of an attribute. -/
def start : Meaning (EdgeKind ⊕ String)
  | .keyword (.relation kind) => .ok (.inl kind)
  | .keyword k => .error (.unexpectedKeyword k.word)
  | .identifier name => .ok (.inr name)
  | token => .error (.unexpectedToken token.display)

/-- The token that a condition starts with. -/
def startToken : EdgeKind ⊕ String → TokenKind
  | .inl kind => .keyword (.relation kind)
  | .inr name => .identifier name

def target (kind : EdgeKind) : Meaning String
  | .text target => .ok target
  | _ => .error (.targetExpected (relationWord kind))

/-- The operator behind the name of an attribute. -/
def operator (name : String) : Meaning Operator
  | .operator op => .ok op
  | _ => .error (.operatorExpected name)

def value : Meaning Property
  | .number written => numberValue written
  | .text s | .identifier s => .ok (.text s)
  | _ => .error .valueExpected

/-- The count behind LIMIT or OFFSET. -/
def count (clause : Keyword) : Meaning Nat
  | .number written =>
      match natBelow? UInt64.size written.toList with
      | some n => .ok n
      | none => .error (.countExpected clause.word)
  | _ => .error (.countExpected clause.word)

variable {token : TokenKind}

theorem find_eq_ok_iff {u : Unit} : find token = .ok u ↔ token = .keyword .find := by
  constructor
  · intro h
    unfold find at h
    split at h
    · rfl
    · cases h
  · rintro rfl
    rfl

theorem word_eq_ok_iff {problem : QueryProblem} {s : String} : word problem token = .ok s ↔ token = .identifier s := by
  cases token <;> simp [word]

theorem target_eq_ok_iff {kind : EdgeKind} {s : String} : target kind token = .ok s ↔ token = .text s := by
  cases token <;> simp [target]

theorem operator_eq_ok_iff {name : String} {op : Operator} : operator name token = .ok op ↔ token = .operator op := by
  cases token <;> simp [operator]

theorem start_eq_ok_iff {s : EdgeKind ⊕ String} : start token = .ok s ↔ token = startToken s := by
  cases token with
  | keyword k => cases k <;> cases s <;> simp [start, startToken]
  | _ => cases s <;> simp [start, startToken]

theorem value_eq_ok_iff {v : Property} : value token = .ok v ↔ FormsValue token v := by
  constructor
  · intro h
    cases token with
    | number written => exact .number (numberValue_eq_ok_iff.mp h)
    | text s =>
        obtain rfl := Except.ok.inj h
        exact .text s
    | identifier s =>
        obtain rfl := Except.ok.inj h
        exact .word s
    | _ => cases h
  · rintro (hdenotes | _ | _)
    · exact numberValue_eq_ok_iff.mpr hdenotes
    · rfl
    · rfl

theorem count_eq_ok_iff {clause : Keyword} {n : Nat} : count clause token = .ok n ↔ FormsCount [token] n := by
  constructor
  · intro h
    cases token with
    | number written =>
        unfold count at h
        dsimp only at h
        cases hcount : natBelow? UInt64.size written.toList with
        | none => simp [hcount] at h
        | some m =>
            rw [hcount] at h
            obtain rfl := Except.ok.inj h
            obtain ⟨hdigits, hvalue, hfits⟩ := natBelow?_eq_some_iff.mp hcount
            exact .mk ⟨hdigits, hvalue, hfits⟩
    | _ => cases h
  · rintro ⟨h⟩
    rw [count, natBelow?_eq_some_iff.mpr ⟨h.digits, h.value, h.fits⟩]

end Meaning

/-! ## Readers made of readers of one token -/

section Readers

variable (finish : Nat) (tokens : List Token)

theorem readValue_eq_readToken : readValue finish tokens = readToken finish Meaning.value tokens := by
  rcases tokens with _ | ⟨⟨kind, position⟩, rest⟩
  · rfl
  · cases kind with
    | number written =>
        unfold readValue readToken Meaning.value front
        dsimp only
        cases numberValue written <;> rfl
    | _ => rfl

theorem readCount_eq_readToken (clause : Keyword) :
    readCount finish clause tokens = readToken finish (Meaning.count clause) tokens := by
  rcases tokens with _ | ⟨⟨kind, position⟩, rest⟩
  · rfl
  · cases kind with
    | number written =>
        unfold readCount readToken Meaning.count front
        dsimp only
        cases natBelow? UInt64.size written.toList <;> rfl
    | _ => rfl

theorem readTarget_eq_thenRead (kind : EdgeKind) :
    readTarget finish kind tokens =
      thenRead (readToken finish (Meaning.target kind)) (fun target => yields (.related kind target)) tokens := by
  rcases tokens with _ | ⟨⟨first, position⟩, rest⟩
  · rfl
  · cases first <;> rfl

theorem readComparison_eq_thenRead (name : String) :
    readComparison finish name tokens =
      thenRead (readToken finish (Meaning.operator name))
        (fun op => thenRead (readValue finish) fun value => yields (.attribute name op value)) tokens := by
  rcases tokens with _ | ⟨⟨first, position⟩, rest⟩
  · rfl
  · cases first <;> rfl

theorem readCondition_eq_thenRead :
    readCondition finish tokens =
      thenRead (readToken finish Meaning.start) (Sum.elim (readTarget finish) (readComparison finish)) tokens := by
  rcases tokens with _ | ⟨⟨first, position⟩, rest⟩
  · rfl
  · cases first with
    | keyword k => cases k <;> rfl
    | _ => rfl

/-- The kind behind FIND, and the alias as a part behind AS. -/
def readKind (finish : Nat) : List Token → Outcome ((String × Option String) × List Token) :=
  thenRead (readToken finish (Meaning.word .kindExpected)) fun kind =>
    thenRead (readPart .as (readToken finish (Meaning.word .aliasExpected))) fun asName => yields (kind, asName)

theorem readFind_of_find (position : Nat) :
    readFind finish (⟨.keyword .find, position⟩ :: tokens) = readKind finish tokens := by
  -- Only the tokens at the places of the kind, of AS and of the name make a difference.
  rcases tokens with _ | ⟨⟨first, _⟩, afterKind⟩
  · rfl
  cases first with
  | identifier kind =>
      rcases afterKind with _ | ⟨⟨second, _⟩, afterAs⟩
      · rfl
      cases second with
      | keyword k =>
          cases k with
          | as =>
              rcases afterAs with _ | ⟨⟨third, _⟩, rest⟩
              · rfl
              · cases third <;> rfl
          | _ => rfl
      | _ => rfl
  | _ => rfl

theorem readFind_eq_thenRead :
    readFind finish tokens = thenRead (readToken finish Meaning.find) (fun _ => readKind finish) tokens := by
  rcases tokens with _ | ⟨⟨first, position⟩, rest⟩
  · rfl
  · cases first with
    | keyword k =>
        cases k with
        | find => exact readFind_of_find finish rest position
        | _ => rfl
    | _ => rfl

end Readers

/-! ## Conditions without a bound -/

/-- More conditions, as many as there are. -/
def readRest (finish : Nat) (tokens : List Token) : Outcome (List (Connective × Condition) × List Token) :=
  readMore finish tokens.length tokens

/-- What is left behind a condition is shorter. -/
theorem length_afterCondition {finish : Nat} {tokens rest : List Token} {c : Condition}
    (h : readCondition finish tokens = .ok (c, rest)) : rest.length < tokens.length := by
  obtain ⟨taken, rfl, hforms⟩ := (exact_readCondition finish).sound h
  have hpos : 0 < (taken.map Token.kind).length := by
    generalize taken.map Token.kind = kinds at hforms
    cases hforms <;> simp
  rw [List.length_map] at hpos
  rw [List.length_append]
  omega

/-- All bounds that the number of tokens does not exceed are alike. -/
theorem readMore_congr (finish : Nat) {bound bound' : Nat} {tokens : List Token} (h : tokens.length ≤ bound)
    (h' : tokens.length ≤ bound') : readMore finish bound tokens = readMore finish bound' tokens := by
  induction bound generalizing bound' tokens with
  | zero =>
      obtain rfl := List.eq_nil_of_length_eq_zero (Nat.le_zero.mp h)
      cases bound' <;> rfl
  | succ bound ih =>
      cases bound' with
      | zero =>
          obtain rfl := List.eq_nil_of_length_eq_zero (Nat.le_zero.mp h')
          rfl
      | succ bound' =>
          rw [readMore, readMore]
          cases connective? (front tokens) with
          | none => rfl
          | some connective =>
              cases hc : readCondition finish tokens.tail with
              | error failure => rfl
              | ok read =>
                  obtain ⟨c, rest⟩ := read
                  -- A condition takes at least one token, so what is left is within both smaller bounds.
                  have hlength := length_afterCondition hc
                  rw [List.length_tail] at hlength
                  have hrest : readMore finish bound rest = readMore finish bound' rest :=
                    ih (by omega) (by omega)
                  show (readMore finish bound rest >>= _) = (readMore finish bound' rest >>= _)
                  rw [hrest]

/-- Behind a connective come a condition and the rest. -/
theorem readRest_cons {finish : Nat} {first : Token} {connective : Connective}
    (h : connective? first.kind = some connective) (tokens : List Token) :
    readRest finish (first :: tokens) =
      thenRead (readCondition finish) (fun c =>
        thenRead (readRest finish) fun more => yields ((connective, c) :: more)) tokens := by
  have hfront : connective? (front (first :: tokens)) = some connective := h
  rw [readRest, List.length_cons, readMore, hfront, thenRead]
  cases hc : readCondition finish tokens with
  | error failure =>
      dsimp only [List.tail_cons]
      rw [hc]
      rfl
  | ok read =>
      obtain ⟨c, rest⟩ := read
      have hlength := length_afterCondition hc
      have hrest : readMore finish tokens.length rest = readRest finish rest :=
        readMore_congr finish (by omega) (Nat.le_refl _)
      dsimp only [List.tail_cons]
      rw [hc]
      show (readMore finish tokens.length rest >>= _) = (readRest finish rest >>= _)
      rw [hrest]
      rfl

theorem readRest_of_none {finish : Nat} {tokens : List Token} (h : connective? (front tokens) = none) :
    readRest finish tokens = .ok ([], tokens) := by
  cases tokens with
  | nil => rfl
  | cons first rest => rw [readRest, List.length_cons, readMore, h]

/-! ## All readers decide -/

section AllDecide

variable (finish : Nat) (tokens : List Token)

theorem decides_readValue : Decides finish (Means Meaning.value) (readValue finish) tokens := by
  have hvalue := decides_readToken finish Meaning.value ⟨.text "", _, rfl⟩ ⟨_, rfl⟩ tokens
  exact hvalue.of_eq (readValue_eq_readToken finish)

theorem decides_readCount (clause : Keyword) : Decides finish FormsCount (readCount finish clause) tokens := by
  have hforms : Means (Meaning.count clause) = FormsCount := by
    funext kinds n
    apply propext
    constructor
    · rintro ⟨token, rfl, htoken⟩
      exact Meaning.count_eq_ok_iff.mp htoken
    · rintro h
      cases h with
      | mk h => exact ⟨_, rfl, Meaning.count_eq_ok_iff.mpr (.mk h)⟩
  have hcount := decides_readToken finish (Meaning.count clause) ⟨.number "0", 0, rfl⟩ ⟨_, rfl⟩ tokens
  rw [hforms] at hcount
  exact hcount.of_eq fun tokens => readCount_eq_readToken finish tokens clause

theorem decides_readTarget (kind : EdgeKind) :
    Decides finish (fun kinds => FormsCondition (.keyword (.relation kind) :: kinds)) (readTarget finish kind)
      tokens := by
  have htarget := decides_readToken finish (Meaning.target kind) ⟨.text "", _, rfl⟩ ⟨_, rfl⟩ tokens
  refine Decides.of_eq (htarget.map _ ?_) fun tokens => readTarget_eq_thenRead finish tokens kind
  rintro _ target ⟨token, rfl, htoken⟩
  rw [Meaning.target_eq_ok_iff.mp htoken]
  exact .relation kind target

theorem decides_readComparison (name : String) :
    Decides finish (fun kinds => FormsCondition (.identifier name :: kinds)) (readComparison finish name) tokens := by
  have hoperator := decides_readToken finish (Meaning.operator name) ⟨.operator .like, _, rfl⟩ ⟨_, rfl⟩ tokens
  have hvalue : ∀ op rest,
      Decides finish (fun kinds => FormsCondition (.identifier name :: .operator op :: kinds))
        (thenRead (readValue finish) fun value => yields (.attribute name op value)) rest := by
    intro op rest
    refine (decides_readValue finish rest).map _ ?_
    rintro _ value ⟨token, rfl, htoken⟩
    exact .comparison name op (Meaning.value_eq_ok_iff.mp htoken)
  refine Decides.of_eq (hoperator.andThen (fun op rest _ => hvalue op rest) ?_)
    fun tokens => readComparison_eq_thenRead finish tokens name
  rintro _ op kinds c ⟨token, rfl, htoken⟩ hcondition
  rw [Meaning.operator_eq_ok_iff.mp htoken]
  exact hcondition

theorem decides_readCondition : Decides finish FormsCondition (readCondition finish) tokens := by
  have hstart := decides_readToken finish Meaning.start ⟨.identifier "", _, rfl⟩ ⟨_, rfl⟩ tokens
  have hnext : ∀ start rest, Decides finish (fun kinds => FormsCondition (Meaning.startToken start :: kinds))
      (Sum.elim (readTarget finish) (readComparison finish) start) rest := by
    rintro (kind | name) rest
    · exact decides_readTarget finish rest kind
    · exact decides_readComparison finish rest name
  refine Decides.of_eq (hstart.andThen (fun start rest _ => hnext start rest) ?_) (readCondition_eq_thenRead finish)
  rintro _ start kinds c ⟨token, rfl, htoken⟩ hcondition
  rw [Meaning.start_eq_ok_iff.mp htoken]
  exact hcondition

/-- The rest of the conditions is decided on: by induction on the number of tokens, for a condition takes some. -/
theorem decides_readRest : Decides finish FormsMore (readRest finish) tokens := by
  induction hlength : tokens.length using Nat.strongRecOn generalizing tokens with
  | _ n ih =>
      cases hconnective : connective? (front tokens) with
      | none =>
          refine .reads [] tokens [] rfl .nil fun rest hfront => ?_
          rw [List.nil_append, readRest_of_none (hfront ▸ hconnective)]
      | some connective =>
          cases tokens with
          | nil => cases hconnective
          | cons first afterFirst =>
              have hfirst : first.kind = .keyword connective.keyword := connective?_eq_some_iff.mp hconnective
              have hrest : ∀ c rest, rest.length ≤ afterFirst.length →
                  Decides finish (fun kinds cs => ∃ more, FormsMore kinds more ∧ cs = (connective, c) :: more)
                    (thenRead (readRest finish) fun more => yields ((connective, c) :: more)) rest := by
                intro c rest hle
                have hshorter : rest.length < n := by
                  rw [← hlength, List.length_cons]
                  omega
                exact (ih _ hshorter rest rfl).map _ fun kinds more hmore => ⟨more, hmore, rfl⟩
              have hboth : Decides finish (fun kinds => FormsMore (first.kind :: kinds))
                  (thenRead (readCondition finish) fun c =>
                    thenRead (readRest finish) fun more => yields ((connective, c) :: more)) afterFirst := by
                refine (decides_readCondition finish afterFirst).andThen hrest ?_
                rintro kinds c others _ hcondition ⟨more, hmore, rfl⟩
                rw [hfirst]
                exact .cons connective hcondition hmore
              exact hboth.behind first (readRest_cons hconnective) fun _ _ hform => hform

theorem decides_readConditions : Decides finish FormsConditions (readConditions finish) tokens := by
  have hrest : ∀ c rest, Decides finish (fun kinds cs => ∃ more, FormsMore kinds more ∧ cs = Conditions.mk c more)
      (thenRead (readRest finish) fun more => yields (Conditions.mk c more)) rest :=
    fun c rest => (decides_readRest finish rest).map _ fun kinds more hmore => ⟨more, hmore, rfl⟩
  refine Decides.of_eq ((decides_readCondition finish tokens).andThen (fun c rest _ => hrest c rest) ?_) fun _ => rfl
  rintro kinds c others _ hcondition ⟨more, hmore, rfl⟩
  exact .mk hcondition hmore

theorem decides_readKind :
    Decides finish (fun kinds => FormsFind (.keyword .find :: kinds)) (readKind finish) tokens := by
  have hword : ∀ problem rest, Decides finish (Means (Meaning.word problem))
      (readToken finish (Meaning.word problem)) rest :=
    fun problem rest => decides_readToken finish (Meaning.word problem) ⟨.identifier "", _, rfl⟩ ⟨_, rfl⟩ rest
  -- Behind the kind a name may follow, which is decided on for each kind that may have been read.
  have hasName : ∀ (kind : String) rest,
      Decides finish (fun kinds => FormsFind (.keyword .find :: .identifier kind :: kinds))
        (thenRead (readPart .as (readToken finish (Meaning.word .aliasExpected))) fun asName => yields (kind, asName))
        rest := by
    intro kind rest
    refine (Decides.part (hword .aliasExpected) rest).map _ ?_
    rintro _ _ (_ | ⟨token, rfl, htoken⟩)
    · exact .plain kind
    · rw [Meaning.word_eq_ok_iff.mp htoken]
      exact .named kind _
  refine (hword .kindExpected tokens).andThen (fun kind rest _ => hasName kind rest) ?_
  rintro _ kind kinds found ⟨token, rfl, htoken⟩ hform
  rw [Meaning.word_eq_ok_iff.mp htoken]
  exact hform

theorem decides_readFind : Decides finish FormsFind (readFind finish) tokens := by
  have hfind := decides_readToken finish Meaning.find ⟨.keyword .find, _, rfl⟩ ⟨_, rfl⟩ tokens
  refine Decides.of_eq (hfind.andThen (fun _ rest _ => decides_readKind finish rest) ?_) (readFind_eq_thenRead finish)
  rintro _ _ kinds found ⟨token, rfl, htoken⟩ hform
  rw [Meaning.find_eq_ok_iff.mp htoken]
  exact hform

section Parts

variable (found : String × Option String) (conditions : Option Conditions) (limit : Option Nat)

/-- What stands behind LIMIT and its count, where the parts in front are known. -/
def readOffset : List Token → Outcome (Query × List Token) :=
  thenRead (readPart .offset (readCount finish .offset)) fun offset =>
    yields ⟨found.1, found.2, conditions, limit, offset⟩

/-- What stands behind the conditions. -/
def readLimit : List Token → Outcome (Query × List Token) :=
  thenRead (readPart .limit (readCount finish .limit)) (readOffset finish found conditions)

/-- What stands behind the kind that is looked for. -/
def readWhere : List Token → Outcome (Query × List Token) :=
  thenRead (readPart .where (readConditions finish)) (readLimit finish found)

/-- The parts of a query, with what is left behind them. -/
def readQuery : List Token → Outcome (Query × List Token) :=
  thenRead (readFind finish) (readWhere finish)

theorem decides_readOffset :
    Decides finish
      (fun kinds q => ∀ {find wheres limits}, FormsFind find found →
        FormsPart .where FormsConditions wheres conditions → FormsPart .limit FormsCount limits limit →
          Forms (find ++ wheres ++ limits ++ kinds) q)
      (readOffset finish found conditions limit) tokens := by
  refine (Decides.part (fun rest => decides_readCount finish rest .offset) tokens).map _ ?_
  intro offsets offset hoffset find wheres limits hfind hwhere hlimit
  exact .mk hfind hwhere hlimit hoffset

theorem decides_readLimit :
    Decides finish
      (fun kinds q => ∀ {find wheres}, FormsFind find found → FormsPart .where FormsConditions wheres conditions →
        Forms (find ++ wheres ++ kinds) q)
      (readLimit finish found conditions) tokens := by
  refine (Decides.part (fun rest => decides_readCount finish rest .limit) tokens).andThen
    (fun limit rest _ => decides_readOffset finish rest found conditions limit) ?_
  intro limits limit offsets q hlimit hrest find wheres hfind hwhere
  rw [← List.append_assoc]
  exact hrest hfind hwhere hlimit

theorem decides_readWhere :
    Decides finish (fun kinds q => ∀ {find}, FormsFind find found → Forms (find ++ kinds) q)
      (readWhere finish found) tokens := by
  refine (Decides.part (decides_readConditions finish) tokens).andThen
    (fun conditions rest _ => decides_readLimit finish rest found conditions) ?_
  intro wheres conditions others q hwhere hrest find hfind
  rw [← List.append_assoc]
  exact hrest hfind hwhere

/-- **The reader of a query decides.** -/
theorem decides_readQuery : Decides finish Forms (readQuery finish) tokens := by
  refine (decides_readFind finish tokens).andThen (fun found rest _ => decides_readWhere finish rest found) ?_
  intro find found others q hfind hrest
  exact hrest hfind

end Parts

/-- A query is what its parts make, if nothing is left behind them. -/
theorem ofTokens_eq_readQuery (hsome : tokens ≠ []) :
    ofTokens finish tokens = (do
      let (q, rest) ← readQuery finish tokens
      if rest.isEmpty then pure q else problemAt finish rest (.trailingInput (front rest).display)) := by
  cases tokens with
  | nil => exact absurd rfl hsome
  | cons first others =>
      simp only [ofTokens, readQuery, readWhere, readLimit, readOffset, thenRead, yields, bind_assoc]
      rfl

end AllDecide

/-! ## The place -/

/-- No word is the end of the text, nor is anything else that a token can be. -/
theorem kind_ne_finish_of_lexeme {c : Char} {rest : List Char} {kind : TokenKind} {more : Nat}
    (h : lexeme c rest = .token kind more) : kind ≠ .finish := by
  have hword : ∀ word, wordToken word ≠ .finish := by
    intro word
    unfold wordToken
    repeat' split
    all_goals exact nofun
  rintro rfl
  unfold lexeme at h
  repeat' split at h
  all_goals first
    | cases h
    | exact hword _ (Lexeme.token.inj h).1

theorem front_ne_finish {tokens : List Token} (h : ∀ token ∈ tokens, token.kind ≠ .finish) (hsome : tokens ≠ []) :
    front tokens ≠ .finish := by
  cases tokens with
  | nil => exact absurd rfl hsome
  | cons first rest => exact h first List.mem_cons_self

/-- **Tokens are refused at one of them**: those in front of it begin a query, and whatever stands behind tokens
that are alike up to it, they are refused. -/
theorem ofTokens_error {finish : Nat} {tokens : List Token} {failure : Failure} (hsome : tokens ≠ [])
    (hkinds : ∀ token ∈ tokens, token.kind ≠ .finish) (h : ofTokens finish tokens = .error failure) :
    ∃ problem before rest, tokens = before ++ rest ∧ failure = .query problem (some (place finish rest)) ∧
      (∃ more q, Forms (before.map Token.kind ++ more) q) ∧
      ∀ rest', front rest' = front rest → ∀ q, ofTokens finish (before ++ rest') ≠ .ok q := by
  have hread := ofTokens_eq_readQuery finish tokens hsome
  have hrefused : ∀ {others : List Token}, (∀ q, readQuery finish others ≠ .ok (q, [])) →
      ∀ q, ofTokens finish others ≠ .ok q := by
    intro others hnone q hq
    cases others with
    | nil => cases hq
    | cons first others =>
        rw [ofTokens_eq_readQuery finish _ (List.cons_ne_nil _ _)] at hq
        obtain ⟨⟨q', rest⟩, hquery, hrest⟩ := bind_eq_ok.mp hq
        dsimp only at hrest
        split at hrest
        · rename_i hempty
          rw [List.isEmpty_iff.mp hempty] at hquery
          exact hnone q' hquery
        · cases hrest
  cases decides_readQuery finish tokens with
  | faults before rest problem split fails begins ends =>
      rw [fails] at hread
      refine ⟨problem, before, rest, split, Except.error.inj (h.symm.trans hread), begins, ?_⟩
      intro rest' hfront
      obtain ⟨failure', hfailure⟩ := ends rest' hfront
      exact hrefused fun q hq => by rw [hfailure] at hq; cases hq
  | reads taken rest q split formed stays =>
      have htaken : readQuery finish tokens = .ok (q, rest) := split ▸ stays rest rfl
      rw [htaken, h] at hread
      -- A whole query is refused only for what is left behind it, and that can only be a token.
      have hrest : rest ≠ [] := by
        rintro rfl
        cases hread
      have hproblem : failure = .query (.trailingInput (front rest).display) (some (place finish rest)) := by
        cases rest with
        | nil => exact absurd rfl hrest
        | cons first others => exact Except.error.inj hread
      refine ⟨_, taken, rest, split, hproblem, ⟨[], q, ?_⟩, ?_⟩
      · rw [List.append_nil]
        exact formed
      · intro rest' hfront
        refine hrefused fun q' hq' => ?_
        rw [stays rest' hfront] at hq'
        obtain rfl := (Prod.mk.inj (Except.ok.inj hq')).2
        refine front_ne_finish (fun token hmem => hkinds token ?_) hrest hfront.symm
        rw [split]
        exact List.mem_append_right taken hmem

/-- The tokens begin some query: with more of them, and the end of the text as the last, they form one. -/
def Begins (kinds : List TokenKind) : Prop :=
  ∃ more whole q, Forms whole q ∧ kinds ++ more = whole ++ [.finish]

/-- **A text is refused at the first token that is beyond help.** The tokens in front of it begin some query, and
no query begins with these and that token. -/
theorem parse_points_at_hopeless {text : String} {tokens : List Token} {failure : Failure}
    (htokens : tokenize text = .ok tokens) (hsome : tokens ≠ []) (hfails : parse text = .error failure) :
    ∃ problem before token after,
      tokens ++ [⟨.finish, text.utf8ByteSize⟩] = before ++ token :: after ∧
      failure = .query problem (some token.position) ∧
      Begins (before.map Token.kind) ∧ ¬Begins ((before ++ [token]).map Token.kind) := by
  have hread : parse text = ofTokens text.utf8ByteSize tokens := by
    rw [parse, htokens]
    rfl
  have hkinds : ∀ token ∈ tokens, token.kind ≠ .finish := forall_kind_of_lexeme kind_ne_finish_of_lexeme htokens
  obtain ⟨problem, before, rest, hsplit, hfailure, ⟨more, q, hforms⟩, hends⟩ :=
    ofTokens_error hsome hkinds (hread ▸ hfails)
  -- The end of the text stands behind all tokens, so there is always one at the fault.
  obtain ⟨token, after, hafter, hkind, hposition⟩ : ∃ token after,
      rest ++ [⟨.finish, text.utf8ByteSize⟩] = token :: after ∧ token.kind = front rest ∧
        token.position = place text.utf8ByteSize rest := by
    cases rest with
    | nil => exact ⟨_, _, rfl, rfl, rfl⟩
    | cons first others => exact ⟨_, _, rfl, rfl, rfl⟩
  refine ⟨problem, before, token, after, ?_, hposition ▸ hfailure, ?_, ?_⟩
  · rw [hsplit, List.append_assoc, hafter]
  · refine ⟨more ++ [.finish], _, q, hforms, ?_⟩
    rw [List.append_assoc]
  · rintro ⟨others, whole, q', hwhole, heq⟩
    rw [List.map_append, List.map_singleton, hkind, List.append_assoc] at heq
    -- A query that begins so is read, although everything that begins so is refused.
    have hsame : ∃ rest' : List Token, front rest' = front rest ∧ (before ++ rest').map Token.kind = whole := by
      rcases List.eq_nil_or_concat others with rfl | ⟨middle, last, rfl⟩
      · rw [List.append_nil] at heq
        obtain ⟨hwhole, hlast⟩ := List.append_inj' heq rfl
        refine ⟨[], (List.singleton_inj.mp hlast).symm, ?_⟩
        rw [List.append_nil, hwhole]
      · rw [List.concat_eq_append, ← List.append_assoc, ← List.append_assoc] at heq
        obtain ⟨hwhole, -⟩ := List.append_inj' heq rfl
        refine ⟨(front rest :: middle).map (Token.mk · 0), rfl, ?_⟩
        rw [← hwhole, List.map_append, List.map_map]
        simp [Function.comp_def]
    obtain ⟨rest', hfront, hmap⟩ := hsame
    exact hends rest' hfront q' ((ofTokens_eq_ok_iff _).mpr (hmap ▸ hwhole))

/-- A count that does not fit in 64 bits: the fault is at the number, although a number has to stand there. -/
theorem parse_points_at_hopeless_largeCount :
    let text := "FIND function LIMIT 99999999999999999999"
    let tokens : List Token := [⟨.keyword .find, 0⟩, ⟨.identifier "function", 5⟩, ⟨.keyword .limit, 14⟩,
      ⟨.number "99999999999999999999", 20⟩]
    let failure := Failure.query (.countExpected "LIMIT") (some 20)
    tokenize text = .ok tokens ∧ tokens ≠ [] ∧ parse text = .error failure ∧
      ∃ problem before token after,
        tokens ++ [⟨.finish, text.utf8ByteSize⟩] = before ++ token :: after ∧
        failure = .query problem (some token.position) ∧
        Begins (before.map Token.kind) ∧ ¬Begins ((before ++ [token]).map Token.kind) := by
  intro text tokens failure
  have htokens : tokenize text = .ok tokens := toOption_eq_some.mp (by decide +kernel)
  have hsome : tokens ≠ [] := List.cons_ne_nil _ _
  have hfails : parse text = .error failure := by
    rw [parse, htokens]
    rfl
  exact ⟨htokens, hsome, hfails, parse_points_at_hopeless htokens hsome hfails⟩

end ProgramGraph.Query
