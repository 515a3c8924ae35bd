import Std.Data.TreeMap
import Std.Data.TreeSet

set_option autoImplicit false

/-! # Looking up in a changed map

The library tells keys apart by their comparison. All keys here are equal when they compare so,
and then a changed map can be looked up by cases on equality.
-/

namespace ProgramGraph

variable {α β : Type} [Ord α] [Std.TransOrd α] [Std.LawfulEqOrd α]

section

variable [DecidableEq α]

theorem getElem?_inserted (m : Std.TreeMap α β) (k : α) (v : β) (a : α) :
    (m.insert k v)[a]? = if a = k then some v else m[a]? := by
  rw [Std.TreeMap.getElem?_insert]
  by_cases h : a = k
  · rw [if_pos h, if_pos (by rw [h]; exact Std.ReflCmp.compare_self)]
  · rw [if_neg h, if_neg fun heq => h (Std.LawfulEqOrd.eq_of_compare heq).symm]

theorem getElem?_erased (m : Std.TreeMap α β) (k a : α) :
    (m.erase k)[a]? = if a = k then none else m[a]? := by
  rw [Std.TreeMap.getElem?_erase]
  by_cases h : a = k
  · rw [if_pos h, if_pos (by rw [h]; exact Std.ReflCmp.compare_self)]
  · rw [if_neg h, if_neg fun heq => h (Std.LawfulEqOrd.eq_of_compare heq).symm]

theorem getElem?_insertedIfNew (m : Std.TreeMap α β) (k : α) (v : β) (a : α) :
    (m.insertIfNew k v)[a]? = if a = k then (m[a]?).or (some v) else m[a]? := by
  rw [Std.TreeMap.getElem?_insertIfNew]
  by_cases h : a = k
  · subst h
    cases hold : m[a]? with
    | none =>
        have hnot : a ∉ m := fun hmem => by
          simp [Std.TreeMap.mem_iff_isSome_getElem?, hold] at hmem
        simp [hnot]
    | some old =>
        have hmem : a ∈ m := Std.TreeMap.mem_iff_isSome_getElem?.mpr (by simp [hold])
        simp [hmem]
  · have hne : compare k a ≠ .eq := fun heq => h (Std.LawfulEqOrd.eq_of_compare heq).symm
    simp [h, hne]

/-- Entries with different keys are entered one by one, and what has another key stays. -/
theorem getElem?_entered {entries : List (α × β)} (h : entries.Pairwise fun a b => a.1 ≠ b.1)
    (m : Std.TreeMap α β) (k : α) (v : β) :
    (entries.foldl (fun acc (key, value) => acc.insert key value) m)[k]? = some v ↔
      (k, v) ∈ entries ∨ (∀ entry ∈ entries, entry.1 ≠ k) ∧ m[k]? = some v := by
  induction entries generalizing m with
  | nil => simp
  | cons entry rest ih =>
      obtain ⟨hfirst, hrest⟩ := List.pairwise_cons.mp h
      rw [List.foldl_cons, ih hrest, getElem?_inserted]
      by_cases hk : k = entry.1
      · subst hk
        -- The key of the first entry comes only once, so nothing that follows overwrites it.
        have hnone : ∀ b ∈ rest, b.1 ≠ entry.1 := fun b hb => (hfirst b hb).symm
        have hnot : (entry.1, v) ∉ rest := fun hmem => hnone _ hmem rfl
        have hself : ¬∀ b ∈ entry :: rest, b.1 ≠ entry.1 := fun hall =>
          hall entry List.mem_cons_self rfl
        have hmem : (entry.1, v) ∈ entry :: rest ↔ entry.2 = v := by
          simp [hnot, Prod.ext_iff, eq_comm]
        rw [if_pos rfl, hmem, Option.some_inj]
        simp only [hnot, hself, false_or, false_and, or_false, and_iff_right hnone]
      · have hne : (k, v) ≠ entry := fun heq => hk (congrArg Prod.fst heq)
        simp [hk, hne, Ne.symm hk]

end

/-- The entries of a map have different keys. -/
theorem distinct_toList (m : Std.TreeMap α β) : m.toList.Pairwise fun a b => a.1 ≠ b.1 :=
  Std.TreeMap.distinct_keys_toList.imp fun hne heq => hne (by
    rw [heq]
    exact Std.ReflCmp.compare_self)

theorem nodup_keys (m : Std.TreeMap α β) : m.keys.Nodup := by
  rw [← Std.TreeMap.map_fst_toList_eq_keys, List.Nodup, List.pairwise_map]
  exact distinct_toList m

/-- The values of a map are those of its entries. -/
theorem values_eq_map {α β : Type} {cmp : α → α → Ordering} (m : Std.TreeMap α β cmp) :
    m.values = m.toList.map Prod.snd := by
  have hfoldr : m.values = m.foldr (fun _ b bs => b :: bs) [] := rfl
  rw [hfoldr, Std.TreeMap.foldr_eq_foldr_toList]
  exact List.foldr_cons_eq_append.trans (List.append_nil _)

/-- Where every value names its key, the values are what the map finds under the keys they name. -/
theorem mem_values_iff {m : Std.TreeMap α β} (keyOf : β → α)
    (h : ∀ {k v}, m[k]? = some v → keyOf v = k) (v : β) : v ∈ m.values ↔ m[keyOf v]? = some v := by
  rw [values_eq_map, List.mem_map]
  constructor
  · rintro ⟨⟨k, w⟩, hmem, rfl⟩
    have hget : m[k]? = some w := Std.TreeMap.mem_toList_iff_getElem?_eq_some.mp hmem
    rw [h hget]
    exact hget
  · intro hget
    exact ⟨(keyOf v, v), Std.TreeMap.mem_toList_iff_getElem?_eq_some.mpr hget, rfl⟩

/-- Two ascending lists with the same members are one. -/
theorem eq_of_ascending {xs ys : List α} (hxs : xs.Pairwise fun a b => compare a b = .lt)
    (hys : ys.Pairwise fun a b => compare a b = .lt) (h : ∀ a, a ∈ xs ↔ a ∈ ys) : xs = ys := by
  have hirrefl : ∀ a : α, compare a a ≠ .lt := fun a ha => by
    have hself : compare a a = .eq := Std.ReflCmp.compare_self
    rw [hself] at ha
    cases ha
  have hnodup : ∀ {l : List α}, l.Pairwise (fun a b => compare a b = .lt) → l.Nodup := by
    intro l hl
    refine hl.imp ?_
    rintro a b hlt rfl
    exact hirrefl a hlt
  have hperm := (List.perm_ext_iff_of_nodup (hnodup hxs) (hnodup hys)).mpr h
  refine hperm.eq_of_pairwise (fun a b _ _ hab hba => ?_) hxs hys
  exact absurd (Std.TransCmp.lt_trans hab hba) (hirrefl a)

/-- Keys that items carry are inserted one after the other. -/
theorem mem_insertedAll {γ : Type} (key : γ → α) {items : List γ} {s : Std.TreeSet α} {a : α} :
    a ∈ items.foldl (fun acc item => acc.insert (key item)) s ↔ a ∈ s ∨ ∃ item ∈ items, key item = a := by
  induction items generalizing s with
  | nil => simp
  | cons item rest ih =>
      simp only [List.mem_cons, exists_eq_or_imp]
      rw [List.foldl_cons, ih, Std.TreeSet.mem_insert, Std.LawfulEqCmp.compare_eq_iff_eq, or_assoc,
        or_left_comm]

theorem mem_toList_ofList [DecidableEq α] (items : List α) (a : α) :
    a ∈ (Std.TreeSet.ofList items).toList ↔ a ∈ items := by
  rw [Std.TreeSet.mem_toList, Std.TreeSet.mem_iff_contains, Std.TreeSet.contains_ofList,
    List.contains_iff_mem]

end ProgramGraph
