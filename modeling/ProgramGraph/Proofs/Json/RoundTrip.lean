import ProgramGraph.Json.Parser
import ProgramGraph.Json.Printer
import ProgramGraph.Proofs.Json.Number
import ProgramGraph.Proofs.Json.Quoted

set_option autoImplicit false

/-! # What JSON keeps

Reading a written value gives the value again, for all values but those that have no text of
their own: byte strings, keys that are no names, integers beyond 64 bits. A float is kept if it is
kept alone; that is all that is asked of writing and reading floats.
-/

namespace ProgramGraph.Json

open ProgramGraph.Wire

/-- A float that is written and read alone comes back unchanged. -/
def KeepsFloat (x : Binary64) : Prop := parse? (print (.float x)) = some (.float x)

/-- The values that JSON keeps. -/
inductive Keeps : Value → Prop where
  | null : Keeps .null
  | bool (b : Bool) : Keeps (.bool b)
  | integer {n : Int} (low : -(2 ^ 63 : Int) ≤ n) (high : n < 2 ^ 64) : Keeps (.integer n)
  | float {x : Binary64} (kept : KeepsFloat x) : Keeps (.float x)
  | text (s : String) : Keeps (.text s)
  | list {items : List Value} (kept : ∀ v ∈ items, Keeps v) : Keeps (.list items)
  | map {entries : List (Key × Value)} (names : ∀ entry ∈ entries, ∃ s, entry.1 = .name s)
      (kept : ∀ entry ∈ entries, Keeps entry.2) : Keeps (.map entries)

/-! ## Space -/

/-- There is nothing but space. -/
def IsGap (gap : List Char) : Prop := ∀ c ∈ gap, isSpace c = true

theorem isGap_nil : IsGap [] := fun _ h => absurd h List.not_mem_nil

theorem skipSpace_gap {gap : List Char} (h : IsGap gap) (rest : List Char) :
    skipSpace (gap ++ rest) = skipSpace rest :=
  List.dropWhile_append_of_pos h

theorem skipSpace_cons {c : Char} (h : isSpace c = false) (rest : List Char) :
    skipSpace (c :: rest) = c :: rest := by
  simp [skipSpace, h]

/-- A text of which something is left when its space is dropped. -/
theorem skipSpace_append {text : List Char} (h : skipSpace text ≠ []) (rest : List Char) :
    skipSpace (text ++ rest) = skipSpace text ++ rest := by
  induction text with
  | nil => exact absurd rfl h
  | cons c text ih =>
      unfold skipSpace at ih h ⊢
      rw [List.cons_append, List.dropWhile_cons, List.dropWhile_cons]
      rw [List.dropWhile_cons] at h
      split
      · rename_i hspace
        rw [if_pos hspace] at h
        exact ih h
      · rfl

/-- Nothing but space is a gap. -/
theorem isGap_of_skipSpace {text : List Char} (h : skipSpace text = []) : IsGap text := by
  induction text with
  | nil => exact isGap_nil
  | cons c text ih =>
      unfold skipSpace at ih h
      rw [List.dropWhile_cons] at h
      split at h
      · rename_i hspace
        intro d hd
        rcases List.mem_cons.mp hd with rfl | hd
        · exact hspace
        · exact ih h d hd
      · cases h

/-! ## Numbers -/

/-- A number begins with a minus or a digit. -/
def StartsNumber (c : Char) : Prop := c = '-' ∨ c.isDigit = true

theorem startsNumber_of_read {c : Char} {text after : List Char} {n : Numeral}
    (h : readNumeral? (c :: text) = some (n, after)) : StartsNumber c := by
  by_cases hminus : c = '-'
  · exact .inl hminus
  · refine .inr ?_
    by_cases hzero : c = '0'
    · subst hzero; rfl
    · cases hdigit : c.isDigit with
      | true => rfl
      | false =>
          simp [readNumeral?, splitMinus, hminus, readWhole?, hzero, someDigits?, hdigit] at h

theorem StartsNumber.ne {c d : Char} (h : StartsNumber c) (hdigit : d.isDigit = false)
    (hminus : d ≠ '-') : c ≠ d := by
  rintro rfl
  rcases h with rfl | hc
  · exact hminus rfl
  · exact Bool.false_ne_true (hdigit.symm.trans hc)

theorem StartsNumber.isSpace_eq {c : Char} (h : StartsNumber c) : isSpace c = false := by
  have hblank := h.ne (d := ' ') (by decide) (by decide)
  have hline := h.ne (d := '\n') (by decide) (by decide)
  have htab := h.ne (d := '\t') (by decide) (by decide)
  have hreturn := h.ne (d := '\r') (by decide) (by decide)
  simp [isSpace, hblank, hline, htab, hreturn]

/-- Where a number begins, a number is read. -/
theorem readValue?_number {c : Char} (hc : StartsNumber c) {text more : List Char}
    (htext : skipSpace text = c :: more) (depth : Nat) :
    readValue? (depth + 1) text =
      (readNumeral? (c :: more)).map fun (n, after) => (n.value, after) := by
  rw [readValue?, htext]
  -- What begins any other value is no digit and no minus.
  split
  case h_7 => rfl
  all_goals
    rename_i heq
    exact absurd (List.cons.inj heq).1 (hc.ne (by decide) (by decide))

theorem mapOf_ne_float (entries : List (Option String × Value)) (x : Binary64) :
    mapOf entries ≠ .float x := by
  unfold mapOf
  split <;> simp

/-- Only a number is read as a float. -/
theorem readNumeral?_of_float {depth : Nat} {text after : List Char} {x : Binary64}
    (h : readValue? depth text = some (.float x, after)) :
    ∃ n, readNumeral? (skipSpace text) = some (n, after) ∧ n.value = .float x := by
  cases depth with
  | zero => simp [readValue?] at h
  | succ depth =>
      rw [readValue?] at h
      split at h
      · simp only [Option.map_eq_some_iff, Prod.mk.injEq, Prod.exists] at h
        obtain ⟨s, _, -, hs, -⟩ := h
        cases s <;> simp at hs
      · split at h <;> simp at h
      · split at h
        · simp at h
        · simp only [Option.map_eq_some_iff, Prod.mk.injEq, Prod.exists] at h
          obtain ⟨entries, _, -, hentries, -⟩ := h
          exact absurd hentries (mapOf_ne_float entries x)
      · simp at h
      · simp at h
      · simp at h
      · simp only [Option.map_eq_some_iff, Prod.mk.injEq, Prod.exists] at h
        obtain ⟨n, _, hread, hvalue, rfl⟩ := h
        exact ⟨n, hread, hvalue⟩

/-- A float that is kept is written as a number. -/
theorem KeepsFloat.numeral {x : Binary64} (h : KeepsFloat x) :
    ∃ n after, readNumeral? (skipSpace (writeFloat x.toFloat)) = some (n, after) ∧
      n.value = .float x ∧ IsGap after := by
  have hchars : (print (.float x)).toList = writeFloat x.toFloat := by
    simp [print, writeValue]
  simp only [KeepsFloat, parse?, hchars, Option.bind_eq_bind, Option.bind_eq_some_iff,
    Prod.exists] at h
  obtain ⟨v, rest, hread, hend⟩ := h
  split at hend
  · rename_i hempty
    obtain rfl : v = .float x := by simpa using hend
    obtain ⟨n, hnumeral, hvalue⟩ := readNumeral?_of_float hread
    exact ⟨n, rest, hnumeral, hvalue, isGap_of_skipSpace (List.isEmpty_iff.mp hempty)⟩
  · cases hend

/-- A kept float is read in front of whatever ends a value. -/
theorem KeepsFloat.readValue?_eq {x : Binary64} (h : KeepsFloat x) {rest : List Char}
    (hrest : EndsValue rest) (depth : Nat) :
    ∃ gap, IsGap gap ∧
      readValue? (depth + 1) (writeFloat x.toFloat ++ rest) = some (.float x, gap ++ rest) := by
  obtain ⟨n, gap, hread, hvalue, hgap⟩ := h.numeral
  refine ⟨gap, hgap, ?_⟩
  cases hskip : skipSpace (writeFloat x.toFloat) with
  | nil => rw [hskip] at hread; simp [readNumeral?, splitMinus, readWhole?] at hread
  | cons c more =>
      rw [hskip] at hread
      have hstart := startsNumber_of_read hread
      have htext : skipSpace (writeFloat x.toFloat ++ rest) = c :: (more ++ rest) := by
        rw [skipSpace_append (by simp [hskip]), hskip, List.cons_append]
      rw [readValue?_number hstart htext, ← List.cons_append, readNumeral?_append hrest hread]
      simp [hvalue]

/-- A written integer is read in front of whatever ends a value. -/
theorem readValue?_integer {n : Int} (hlow : -(2 ^ 63 : Int) ≤ n) (hhigh : n < 2 ^ 64)
    {rest : List Char} (hrest : EndsValue rest) (depth : Nat) :
    readValue? (depth + 1) ((toString n).toList ++ rest) = some (.integer n, rest) := by
  obtain ⟨numeral, hread, hvalue⟩ := readNumeral?_int hlow hhigh
  cases htext : (toString n).toList with
  | nil => rw [htext] at hread; simp [readNumeral?, splitMinus, readWhole?] at hread
  | cons c more =>
      rw [htext] at hread
      have hstart := startsNumber_of_read hread
      have hskip : skipSpace (c :: more ++ rest) = c :: (more ++ rest) :=
        skipSpace_cons hstart.isSpace_eq _
      rw [readValue?_number hstart hskip, ← List.cons_append, readNumeral?_append hrest hread]
      simp [hvalue]

/-! ## Values -/

/-- No value begins with the end of a list. -/
theorem readValue?_bracket {text more : List Char} (h : skipSpace text = ']' :: more)
    (depth : Nat) : readValue? depth text = none := by
  cases depth with
  | zero => rfl
  | succ depth => simp [readValue?, h, readNumeral?, splitMinus, readWhole?, someDigits?]

/-- No list of items begins with its end. -/
theorem readItems?_bracket {text more : List Char} (h : skipSpace text = ']' :: more)
    (depth : Nat) : readItems? depth text = none := by
  cases depth with
  | zero => rfl
  | succ depth => rw [readItems?, readValue?_bracket h]; rfl

/-- Where items can be read there is a list. -/
theorem readValue?_list {depth : Nat} {text after : List Char} {items : List Value}
    (h : readItems? depth text = some (items, after)) :
    readValue? (depth + 1) ('[' :: text) = some (.list items, after) := by
  rw [readValue?, skipSpace_cons (by decide)]
  -- The bracket decides what is read.
  simp only []
  split
  · rename_i hbracket
    rw [readItems?_bracket hbracket] at h
    cases h
  · rw [h]
    rfl

/-- Where entries can be read there is a map. -/
theorem readValue?_map {depth : Nat} {text after : List Char}
    {entries : List (Option String × Value)} (h : readEntries? depth text = some (entries, after)) :
    readValue? (depth + 1) ('{' :: text) = some (mapOf entries, after) := by
  rw [readValue?, skipSpace_cons (by decide)]
  simp only []
  split
  · rename_i hbrace
    cases depth with
    | zero => cases h
    | succ depth =>
        rw [readEntries?, hbrace] at h
        cases h
  · rw [h]
    rfl

theorem readValue?_text (s : String) (rest : List Char) (depth : Nat) :
    readValue? (depth + 1) (quote s ++ rest) = some (.text s, rest) := by
  rw [quote_append, readValue?, skipSpace_cons (by decide)]
  simp [readQuoted?_quote]

theorem writeValue_ne_nil {v : Value} (h : Keeps v) : writeValue v ≠ [] := by
  cases h with
  | null => simp [writeValue]
  | bool b => cases b <;> simp [writeValue]
  | integer _ _ => rw [writeValue, toList_toString_int]; simp
  | float hx =>
      intro hnil
      obtain ⟨n, after, hread, -, -⟩ := hx.numeral
      rw [writeValue] at hnil
      simp [hnil, skipSpace, readNumeral?, splitMinus, readWhole?] at hread
  | text s => simp [writeValue, quote]
  | list _ => simp [writeValue]
  | map _ _ => simp [writeValue]

/-- A value is read at the front of a text, and only space is left in front of the rest. -/
def ReadsTo (found : Option (Value × List Char)) (v : Value) (rest : List Char) : Prop :=
  ∃ gap, IsGap gap ∧ found = some (v, gap ++ rest)

/-- Entries whose keys are names are those of a map. -/
theorem mapOf_names {entries : List (Key × Value)}
    (h : ∀ entry ∈ entries, ∃ s, entry.1 = .name s) :
    mapOf (entries.map fun entry => (some entry.1.display, entry.2)) = .map entries := by
  suffices hnamed : (entries.map fun entry => (some entry.1.display, entry.2)).mapM
      (fun (entry : Option String × Value) => entry.1.map fun k => (Key.name k, entry.2)) =
        some entries by
    simp only [mapOf, hnamed]
  induction entries with
  | nil => rfl
  | cons entry entries ih =>
      obtain ⟨s, hs⟩ := h entry List.mem_cons_self
      rw [List.map_cons, List.mapM_cons, ih fun e he => h e (List.mem_cons_of_mem _ he)]
      obtain ⟨key, v⟩ := entry
      obtain rfl : key = .name s := hs
      rfl

/-- The first entry of a text, and what is read behind its value. -/
theorem readEntries?_cons {depth : Nat} {s : String} {v : Value} {text rest : List Char}
    (h : ReadsTo (readValue? depth text) v rest) :
    readEntries? (depth + 1) (quote s ++ ':' :: text) =
      match skipSpace rest with
      | ',' :: more =>
          (readEntries? depth more).map fun (entries, after) => ((some s, v) :: entries, after)
      | '}' :: after => some ([(some s, v)], after)
      | _ => none := by
  obtain ⟨gap, hgap, hread⟩ := h
  rw [quote_append, readEntries?, skipSpace_cons (by decide)]
  simp only [readQuoted?_quote, Option.bind_eq_bind, Option.bind_some,
    skipSpace_cons (c := ':') (by decide), hread, skipSpace_gap hgap]
  generalize skipSpace rest = tail
  rcases tail with _ | ⟨c, tail⟩
  · rfl
  · by_cases hcomma : c = ','
    · subst hcomma
      show (readEntries? depth tail).bind (fun acc => pure ((some s, v) :: acc.1, acc.2)) =
        (readEntries? depth tail).map fun (entries, after) => ((some s, v) :: entries, after)
      cases readEntries? depth tail <;> rfl
    · by_cases hbrace : c = '}'
      · subst hbrace
        rfl
      · simp [hcomma, hbrace]

mutual

/-- A kept value is read in front of whatever ends a value. -/
theorem readValue?_write : ∀ (depth : Nat) {v : Value} {rest : List Char}, Keeps v →
    EndsValue rest → (writeValue v).length ≤ depth →
      ReadsTo (readValue? depth (writeValue v ++ rest)) v rest
  | 0, v, rest, hv, _, hdepth =>
      absurd (List.eq_nil_of_length_eq_zero (Nat.le_zero.mp hdepth)) (writeValue_ne_nil hv)
  | _ + 1, .null, _, _, _, _ => ⟨[], isGap_nil, rfl⟩
  | _ + 1, .bool true, _, _, _, _ => ⟨[], isGap_nil, rfl⟩
  | _ + 1, .bool false, _, _, _, _ => ⟨[], isGap_nil, rfl⟩
  | depth + 1, .integer n, rest, .integer hlow hhigh, hrest, _ =>
      ⟨[], isGap_nil, readValue?_integer hlow hhigh hrest depth⟩
  | depth + 1, .float x, rest, .float hx, hrest, _ => hx.readValue?_eq hrest depth
  | depth + 1, .text s, rest, _, _, _ => ⟨[], isGap_nil, readValue?_text s rest depth⟩
  | depth + 1, .list [], rest, .list _, _, _ => ⟨[], isGap_nil, rfl⟩
  | depth + 1, .list (v :: items), rest, .list hitems, _, hdepth => by
      have hread := readItems?_write depth rest (List.cons_ne_nil v items) hitems
        (by simpa [writeValue] using hdepth)
      exact ⟨[], isGap_nil, readValue?_list hread⟩
  | depth + 1, .map [], rest, .map _ _, _, _ => ⟨[], isGap_nil, rfl⟩
  | depth + 1, .map (entry :: entries), rest, .map hnames hentries, _, hdepth => by
      have hread := readEntries?_write depth rest (List.cons_ne_nil entry entries) hnames hentries
        (by simpa [writeValue] using hdepth)
      refine ⟨[], isGap_nil, (readValue?_map hread).trans ?_⟩
      rw [mapOf_names hnames]
      rfl

/-- Kept items are read up to the closing bracket. -/
theorem readItems?_write : ∀ (depth : Nat) {items : List Value} (rest : List Char), items ≠ [] →
    (∀ v ∈ items, Keeps v) → (writeItems items).length ≤ depth →
      readItems? depth (writeItems items ++ rest) = some (items, rest)
  | _, [], _, hne, _, _ => absurd rfl hne
  | 0, [v], _, _, _, hdepth => by simp [writeItems] at hdepth
  | 0, v :: w :: items, _, _, _, hdepth => by simp [writeItems] at hdepth
  | depth + 1, [v], rest, _, hitems, hdepth => by
      have hlength : (writeValue v).length ≤ depth := by simpa [writeItems] using hdepth
      obtain ⟨gap, hgap, hread⟩ :=
        readValue?_write depth (hitems v List.mem_cons_self) (endsValue_bracket rest) hlength
      rw [writeItems, List.append_assoc, List.singleton_append, readItems?, hread]
      simp only [Option.bind_eq_bind, Option.bind_some, skipSpace_gap hgap]
      rfl
  | depth + 1, v :: w :: items, rest, _, hitems, hdepth => by
      -- The depth bounds the length of what is still written, which each item shortens.
      have hlength : (writeValue v).length + (writeItems (w :: items)).length ≤ depth := by
        simp [writeItems] at hdepth
        omega
      obtain ⟨gap, hgap, hread⟩ := readValue?_write depth (hitems v List.mem_cons_self)
        (endsValue_comma (writeItems (w :: items) ++ rest)) (by omega)
      have hmore := readItems?_write depth rest (List.cons_ne_nil w items)
        (fun u hu => hitems u (List.mem_cons_of_mem _ hu)) (by omega)
      rw [writeItems, List.append_assoc, List.cons_append, readItems?, hread]
      simp only [Option.bind_eq_bind, Option.bind_some, skipSpace_gap hgap,
        skipSpace_cons (c := ',') (by decide)]
      rw [hmore]
      rfl

/-- Kept entries are read up to the closing brace. -/
theorem readEntries?_write : ∀ (depth : Nat) {entries : List (Key × Value)} (rest : List Char),
    entries ≠ [] → (∀ entry ∈ entries, ∃ s, entry.1 = .name s) →
      (∀ entry ∈ entries, Keeps entry.2) → (writeEntries entries).length ≤ depth →
        readEntries? depth (writeEntries entries ++ rest) =
          some (entries.map fun entry => (some entry.1.display, entry.2), rest)
  | _, [], _, hne, _, _, _ => absurd rfl hne
  | 0, [(key, v)], _, _, _, _, hdepth => by simp [writeEntries] at hdepth
  | 0, (key, v) :: next :: entries, _, _, _, _, hdepth => by simp [writeEntries] at hdepth
  | depth + 1, [(key, v)], rest, _, hnames, hentries, hdepth => by
      obtain ⟨s, rfl⟩ : ∃ s, key = .name s := hnames _ List.mem_cons_self
      have hkept : Keeps v := hentries (.name s, v) List.mem_cons_self
      have hread := readValue?_write depth hkept (endsValue_brace rest)
        (by simp [writeEntries] at hdepth; omega)
      have htext : writeEntries [(.name s, v)] ++ rest =
          quote s ++ ':' :: (writeValue v ++ '}' :: rest) := by
        simp [writeEntries, writeKey, Key.display]
      rw [htext, readEntries?_cons hread, skipSpace_cons (by decide)]
      rfl
  | depth + 1, (key, v) :: next :: entries, rest, _, hnames, hentries, hdepth => by
      obtain ⟨s, rfl⟩ : ∃ s, key = .name s := hnames _ List.mem_cons_self
      have hkept : Keeps v := hentries (.name s, v) List.mem_cons_self
      have hread := readValue?_write depth hkept
        (endsValue_comma (writeEntries (next :: entries) ++ rest))
        (by simp [writeEntries] at hdepth; omega)
      have hmore := readEntries?_write depth rest (List.cons_ne_nil next entries)
        (fun entry hentry => hnames entry (List.mem_cons_of_mem _ hentry))
        (fun entry hentry => hentries entry (List.mem_cons_of_mem _ hentry))
        (by simp [writeEntries] at hdepth; omega)
      have htext : writeEntries ((.name s, v) :: next :: entries) ++ rest =
          quote s ++ ':' :: (writeValue v ++ ',' :: (writeEntries (next :: entries) ++ rest)) := by
        simp [writeEntries, writeKey, Key.display]
      rw [htext, readEntries?_cons hread, skipSpace_cons (by decide)]
      simp only [hmore]
      rfl

end

/-- **JSON keeps a value.** -/
theorem parse?_print {v : Value} (h : Keeps v) : parse? (print v) = some v := by
  have hchars : (print v).toList = writeValue v := String.toList_ofList
  obtain ⟨gap, hgap, hread⟩ := readValue?_write ((writeValue v).length + 1) h endsValue_nil
    (Nat.le_succ _)
  have hend : skipSpace (gap ++ []) = [] := skipSpace_gap hgap []
  rw [List.append_nil] at hread hend
  simp [parse?, hchars, hread, hend]

end ProgramGraph.Json
