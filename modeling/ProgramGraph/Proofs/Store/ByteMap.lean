import ProgramGraph.Proofs.Map
import ProgramGraph.Store.ByteMap

set_option autoImplicit false

/-! # Scans and changes of byte maps

A scan stops at the first key without the beginning that it looks for. Nothing is missed by
that (`ByteMap.scan_eq_filter`), because keys with a common beginning stand together. What is
found under a key after some changes is what the last change of this key left there
(`ByteMap.getElem?_writeAll`). Both together say what a scan finds at any time
(`ByteMap.ArisesBy.scan_exact`).
-/

namespace ProgramGraph

open ProgramGraph.Text

/-- The value that a change leaves under its key. -/
def ByteWrite.value? : ByteWrite → Option Bytes
  | .put _ value => some value
  | .delete _ => none

/-- The last of some changes that touches a key. -/
def lastWrite? (writes : List ByteWrite) (key : Bytes) : Option ByteWrite :=
  writes.reverse.find? fun w => key = w.key

theorem lastWrite?_eq_none {writes : List ByteWrite} {key : Bytes} :
    lastWrite? writes key = none ↔ ∀ w ∈ writes, key ≠ w.key := by
  simp [lastWrite?]

namespace ByteMap

/-! ## Scans -/

/-- A key between a beginning and a key that has it has the beginning too. -/
theorem isPrefix_of_between {start a b : Bytes} (hge : (compare a start).isGE)
    (hlt : compare a b = .lt) (hb : start <+: b) : start <+: a := by
  induction start generalizing a b with
  | nil => exact List.nil_prefix
  | cons s start ih =>
      obtain ⟨more, rfl⟩ := hb
      cases a with
      | nil => simp at hge
      | cons x xs =>
          simp only [List.cons_append, List.compare_eq_compareLex, List.compareLex_cons_cons] at hge hlt
          -- Where the first bytes differ, the key lies on the wrong side of the beginning or of the other key.
          cases hx : compare x s with
          | lt => simp [hx] at hge
          | gt => simp [hx] at hlt
          | eq =>
              obtain rfl := Std.LawfulEqOrd.eq_of_compare hx
              have hxs := ih (a := xs) (b := start ++ more)
                (by simpa [List.compare_eq_compareLex] using hge)
                (by simpa [List.compare_eq_compareLex] using hlt) (List.prefix_append start more)
              exact List.cons_prefix_cons.mpr ⟨rfl, hxs⟩

/-- A key is not before its beginnings. -/
theorem isGE_of_isPrefix {start a : Bytes} (h : start <+: a) : (compare a start).isGE := by
  induction start generalizing a with
  | nil => cases a <;> simp
  | cons s start ih =>
      obtain ⟨more, rfl⟩ := h
      have := ih (List.prefix_append start more)
      simpa [List.compare_eq_compareLex, List.compareLex_cons_cons] using this

/-- Where no item has a property again after one has lost it, taking while it holds is
selecting. -/
theorem takeWhile_eq_filter {α : Type} {p : α → Bool} {items : List α}
    (h : items.Pairwise fun a b => p b = true → p a = true) : items.takeWhile p = items.filter p := by
  induction items with
  | nil => rfl
  | cons a rest ih =>
      obtain ⟨ha, hrest⟩ := List.pairwise_cons.mp h
      cases hp : p a with
      | true => rw [List.takeWhile_cons_of_pos hp, List.filter_cons_of_pos hp, ih hrest]
      | false =>
          have hnot : ∀ b ∈ rest, ¬p b = true := fun b hb hpb => by simp [ha b hb hpb] at hp
          rw [List.takeWhile_cons_of_neg (by simp [hp]), List.filter_cons_of_neg (by simp [hp]),
            List.filter_eq_nil_iff.mpr hnot]

/-- **A scan misses nothing.** It gives the entries whose key has the beginning. -/
theorem scan_eq_filter (m : ByteMap) (start : Bytes) :
    m.scan start = m.toList.filter fun entry => start.isPrefixOf entry.1 := by
  have hscan : m.scan start = (m.toList.filter fun entry => (compare entry.1 start).isGE).takeWhile
      fun entry => start.isPrefixOf entry.1 := by
    unfold scan
    rw [Std.Iter.toList_takeWhile_of_finite]
    simp
  -- The keys with the beginning stand together, right behind it, so nothing is lost by stopping.
  have hsorted : (m.toList.filter fun entry => (compare entry.1 start).isGE).Pairwise
      fun a b => start.isPrefixOf b.1 = true → start.isPrefixOf a.1 = true := by
    refine List.pairwise_filter.mpr (Std.TreeMap.ordered_keys_toList.imp ?_)
    intro a b hlt ha _ hb
    rw [List.isPrefixOf_iff_prefix] at hb ⊢
    exact isPrefix_of_between ha hlt hb
  rw [hscan, takeWhile_eq_filter hsorted, List.filter_filter]
  refine List.filter_congr fun entry _ => ?_
  cases hprefix : start.isPrefixOf entry.1 with
  | false => rfl
  | true => exact isGE_of_isPrefix (List.isPrefixOf_iff_prefix.mp hprefix)

/-- The keys that a scan finds. -/
def keysUnder (m : ByteMap) (start : Bytes) : List Bytes := (m.scan start).map Prod.fst

theorem mem_keysUnder {m : ByteMap} {start key : Bytes} :
    key ∈ m.keysUnder start ↔ key ∈ m ∧ start <+: key := by
  simp only [keysUnder, scan_eq_filter, List.mem_map, List.mem_filter, List.isPrefixOf_iff_prefix,
    Prod.exists, exists_and_right, exists_eq_right, Std.TreeMap.mem_toList_iff_getElem?_eq_some,
    Std.TreeMap.mem_iff_isSome_getElem?, Option.isSome_iff_exists]

theorem nodup_keysUnder (m : ByteMap) (start : Bytes) : (m.keysUnder start).Nodup := by
  rw [keysUnder, scan_eq_filter, List.Nodup, List.pairwise_map]
  exact (distinct_toList m).filter _

/-- What is made of the entries of a scan can be made of the keys that it finds. -/
theorem filterMap_scan {α : Type} (m : ByteMap) (start : Bytes) (f : Bytes → Bytes → Option α) :
    (m.scan start).filterMap (fun (key, value) => f key value) =
      (m.keysUnder start).filterMap fun key => m[key]?.bind (f key) := by
  have hvalue : ∀ entry ∈ m.scan start, m[entry.1]? = some entry.2 := fun entry hentry => by
    rw [scan_eq_filter] at hentry
    exact Std.TreeMap.mem_toList_iff_getElem?_eq_some.mp (List.mem_filter.mp hentry).1
  rw [keysUnder]
  generalize m.scan start = found at hvalue
  induction found with
  | nil => rfl
  | cons entry rest ih =>
      rw [List.map_cons, List.filterMap_cons, List.filterMap_cons, hvalue entry List.mem_cons_self,
        ih fun e he => hvalue e (List.mem_cons_of_mem _ he)]
      rfl

/-! ## Changes -/

theorem writeAll_append (m : ByteMap) (first next : List ByteWrite) :
    m.writeAll (first ++ next) = (m.writeAll first).writeAll next := List.foldl_append

theorem getElem?_write (m : ByteMap) (w : ByteWrite) (key : Bytes) :
    (m.write w)[key]? = if key = w.key then w.value? else m[key]? := by
  cases w with
  | put _ value => exact getElem?_inserted m _ value key
  | delete _ => exact getElem?_erased m _ key

/-- **Looking up after changes.** The last change of the key decides; without one, the key is as
before. -/
theorem getElem?_writeAll (m : ByteMap) (writes : List ByteWrite) (key : Bytes) :
    (m.writeAll writes)[key]? = (lastWrite? writes key).elim m[key]? ByteWrite.value? := by
  induction writes generalizing m with
  | nil => rfl
  | cons w rest ih =>
      have hfirst : m.writeAll (w :: rest) = (m.write w).writeAll rest := rfl
      have hlast : lastWrite? (w :: rest) key =
          (lastWrite? rest key).or (if key = w.key then some w else none) := by
        rw [lastWrite?, lastWrite?, List.reverse_cons, List.find?_append]
        by_cases hkey : key = w.key <;> simp [hkey]
      rw [hfirst, ih, hlast, getElem?_write]
      cases lastWrite? rest key with
      | some later => rfl
      | none => by_cases hkey : key = w.key <;> simp [hkey]

/-- Looking up after keys are deleted one after the other. -/
theorem getElem?_deleteAll (m : ByteMap) (keys : List Bytes) (key : Bytes) :
    (m.writeAll (keys.map .delete))[key]? = if key ∈ keys then none else m[key]? := by
  induction keys generalizing m with
  | nil => simp [writeAll]
  | cons first rest ih =>
      have hrest := ih (m.erase first)
      rw [getElem?_erased] at hrest
      refine hrest.trans ?_
      by_cases hin : key ∈ rest <;> by_cases hfirst : key = first <;> simp [hin, hfirst]

/-! ## Scans after changes -/

/-- Keys that are compared as smaller are smaller, byte by byte. -/
theorem lt_of_compare {a b : Bytes} (h : compare a b = .lt) : a < b := by
  induction a generalizing b with
  | nil => cases b <;> simp_all
  | cons x xs ih =>
      cases b with
      | nil => simp at h
      | cons y ys =>
          simp only [List.compare_eq_compareLex, List.compareLex_cons_cons] at h
          rw [List.cons_lt_cons_iff]
          cases hx : compare x y with
          | lt => exact .inl (Std.compare_eq_lt.mp hx)
          | gt => simp [hx] at h
          | eq =>
              obtain rfl := Std.LawfulEqOrd.eq_of_compare hx
              exact .inr ⟨rfl, ih (by simpa [hx, List.compare_eq_compareLex] using h)⟩

/-- The maps that come about by single changes and by batches of them, with all that was changed, in
its order. -/
inductive ArisesBy : List ByteWrite → ByteMap → Prop where
  | empty : ArisesBy [] ∅
  | put {done : List ByteWrite} {m : ByteMap} (h : ArisesBy done m) (key value : Bytes) :
      ArisesBy (done ++ [.put key value]) (m.write (.put key value))
  | delete {done : List ByteWrite} {m : ByteMap} (h : ArisesBy done m) (key : Bytes) :
      ArisesBy (done ++ [.delete key]) (m.write (.delete key))
  | batch {done : List ByteWrite} {m : ByteMap} (h : ArisesBy done m) (writes : List ByteWrite) :
      ArisesBy (done ++ writes) (m.writeAll writes)

namespace ArisesBy

variable {done : List ByteWrite} {m : ByteMap}

/-- How the changes were grouped makes no difference. -/
theorem eq_writeAll (h : ArisesBy done m) : m = writeAll ∅ done := by
  induction h with
  | empty => rfl
  | put _ key value ih => rw [writeAll_append, ← ih]; rfl
  | delete _ key ih => rw [writeAll_append, ← ih]; rfl
  | batch _ writes ih => rw [writeAll_append, ← ih]

theorem getElem?_eq (h : ArisesBy done m) (key : Bytes) :
    m[key]? = (lastWrite? done key).bind ByteWrite.value? := by
  rw [h.eq_writeAll, getElem?_writeAll]
  cases lastWrite? done key <;> simp

/-- **A scan is exact after any changes.** It gives the keys that have the beginning and that the last
change of theirs did not delete, each with the value that this change put there, in ascending order. -/
theorem scan_exact (h : ArisesBy done m) (start : Bytes) :
    ((m.scan start).Pairwise fun a b => a.1 < b.1) ∧
      ∀ key value, (key, value) ∈ m.scan start ↔
        start <+: key ∧ (lastWrite? done key).bind ByteWrite.value? = some value := by
  rw [scan_eq_filter]
  constructor
  · exact (Std.TreeMap.ordered_keys_toList.imp lt_of_compare).filter _
  · intro key value
    rw [List.mem_filter, Std.TreeMap.mem_toList_iff_getElem?_eq_some, List.isPrefixOf_iff_prefix,
      h.getElem?_eq, and_comm]

/-- Keys around the beginning `61 ff`: one that is the beginning, one that extends it by the greatest
byte and was written twice, one that was deleted again in a batch, and the neighbours on either side. -/
theorem scan_exact_greatestBytes :
    let writes : List ByteWrite := [.put [0x62] [2], .put [0x61, 0xff, 0x00] [3], .put [0x61, 0xff, 0xff] [4],
      .delete [0x61, 0xff, 0x00]]
    let m := (((((∅ : ByteMap).write (.put [0x61, 0xff, 0xff] [0])).write (.put [0x61, 0xfe, 0xff] [1])).write
      (.delete [0x60])).write (.put [0x61, 0xff] [])).writeAll writes
    ArisesBy ([.put [0x61, 0xff, 0xff] [0], .put [0x61, 0xfe, 0xff] [1], .delete [0x60],
        .put [0x61, 0xff] []] ++ writes) m ∧
      m.scan [0x61, 0xff] = [([0x61, 0xff], []), ([0x61, 0xff, 0xff], [4])] ∧
      ((m.scan [0x61, 0xff]).Pairwise fun a b => a.1 < b.1) ∧ ([0x61, 0xff, 0xff], [4]) ∈ m.scan [0x61, 0xff] := by
  intro writes m
  have harises := ((((ArisesBy.empty.put [0x61, 0xff, 0xff] [0]).put [0x61, 0xfe, 0xff] [1]).delete [0x60]).put
    [0x61, 0xff] []).batch writes
  obtain ⟨hascending, hmem⟩ := harises.scan_exact [0x61, 0xff]
  have hscan : m.scan [0x61, 0xff] = [([0x61, 0xff], []), ([0x61, 0xff, 0xff], [4])] := by
    rw [scan_eq_filter]
    decide +kernel
  exact ⟨harises, hscan, hascending, (hmem _ _).mpr ⟨by decide, by decide⟩⟩

end ArisesBy

end ByteMap

end ProgramGraph
