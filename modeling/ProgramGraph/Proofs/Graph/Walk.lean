import ProgramGraph.Graph.Traversal
import ProgramGraph.Proofs.Graph.Index

set_option autoImplicit false

/-! # Walks

What a traversal has to visit is said by walks: so many steps along a relation from where it starts
(`Walk`), and the least number of them (`IsDistance`). A graph has such a relation for each direction
and each choice of relations (`Graph.Leads`).

A traversal asks for the neighbours of one node at a time. `Follows` says what the proofs about
traversals need of the answers: they are right and ascend, and what is left to be answered shrinks with
each node by as much as its answer is long. For a graph that is left are the edges at nodes not yet taken,
and this is why no traversal runs out of steps (`Graph.IsIndexed.follows`).
-/

namespace ProgramGraph

variable {leads : String → String → Prop} {start id : String} {maxDepth : Option Nat} {m n : Nat}

/-! ## Walks and distances -/

/-- So many steps along a relation lead from the start to the node. -/
inductive Walk (leads : String → String → Prop) (start : String) : Nat → String → Prop where
  | start : Walk leads start 0 start
  | step {n : Nat} {a b : String} (before : Walk leads start n a) (hleads : leads a b) :
      Walk leads start (n + 1) b

/-- A node other than the start is led to. -/
theorem Walk.eq_or_leads (h : Walk leads start n id) : id = start ∨ ∃ a, leads a id := by
  cases h with
  | start => exact .inl rfl
  | step _ hleads => exact .inr ⟨_, hleads⟩

/-- So many steps lead to the node, and no fewer. -/
structure IsDistance (leads : String → String → Prop) (start : String) (n : Nat) (id : String) : Prop where
  walk : Walk leads start n id
  le : ∀ {m}, Walk leads start m id → n ≤ m

theorem IsDistance.unique (hm : IsDistance leads start m id) (hn : IsDistance leads start n id) : m = n :=
  Nat.le_antisymm (hm.le hn.walk) (hn.le hm.walk)

/-- What some steps lead to has a distance. -/
theorem Walk.exists_isDistance (h : Walk leads start n id) : ∃ m ≤ n, IsDistance leads start m id := by
  induction n using Nat.strongRecOn with
  | ind n ih =>
      by_cases hless : ∃ m < n, Walk leads start m id
      · obtain ⟨m, hm, hwalk⟩ := hless
        obtain ⟨k, hk, hdistance⟩ := ih m hm hwalk
        exact ⟨k, by omega, hdistance⟩
      · refine ⟨n, Nat.le_refl n, h, fun {m} hwalk => ?_⟩
        by_cases hm : m < n
        · exact absurd ⟨m, hm, hwalk⟩ hless
        · omega

/-! ## Bounds -/

/-- A number of steps is within the bound, if there is one. -/
def Permits (maxDepth : Option Nat) (n : Nat) : Prop := ∀ bound ∈ maxDepth, n ≤ bound

@[simp] theorem permits_none : Permits none n := fun _ h => nomatch h

@[simp] theorem permits_some {bound : Nat} : Permits (some bound) n ↔ n ≤ bound := by
  simp [Permits]

@[simp] theorem permits_zero : Permits maxDepth 0 := fun bound _ => Nat.zero_le bound

theorem Permits.mono (h : Permits maxDepth n) (hle : m ≤ n) : Permits maxDepth m := fun bound hbound =>
  Nat.le_trans hle (h bound hbound)

theorem atBound_iff : Graph.atBound maxDepth n = true ↔ ¬Permits maxDepth (n + 1) := by
  cases maxDepth with
  | none => simp [Graph.atBound]
  | some bound =>
      unfold Graph.atBound
      rw [permits_some, Option.any_some, decide_eq_true_eq]
      omega

/-! ## Answers -/

/-- `next` answers where the relation leads, in ascending order, and `left` bounds what it has still to
answer when some nodes have been taken. -/
structure Follows (next : String → List String) (leads : String → String → Prop)
    (left : List String → Nat) : Prop where
  mem_iff : ∀ {a b}, b ∈ next a ↔ leads a b
  ascends : ∀ a, (next a).Pairwise (· ≤ ·)
  left_append : ∀ {taken a}, a ∉ taken → (next a).length + left (taken ++ [a]) ≤ left taken

/-- What ascends without repetition ascends strictly. -/
theorem ascends_of_nodup {ids : List String} (h : ids.Pairwise (· ≤ ·)) (hnodup : ids.Nodup) :
    ids.Pairwise (· < ·) := by
  refine (h.and hnodup).imp fun {a b} hab => ?_
  by_cases hlt : a < b
  · exact hlt
  · exact absurd (String.le_antisymm hab.1 (String.not_lt.mp hlt)) hab.2

/-- Nodes that are met at one depth. -/
theorem map_fst_at (ids : List String) (d : Nat) : (ids.map (·, d)).map Prod.fst = ids := by
  rw [List.map_map]
  exact List.map_id ids

section Levels

variable {α β γ : Type} {d : Nat}

/-- What is met at one depth keeps the order behind what was met no deeper. -/
theorem ascends_append_level {met : List (α × Nat)} (h : met.Pairwise fun x y => x.2 ≤ y.2)
    (hbound : ∀ x ∈ met, x.2 ≤ d) (f : β → α) (fresh : List β) :
    (met ++ fresh.map fun b => (f b, d)).Pairwise fun x y => x.2 ≤ y.2 := by
  refine List.pairwise_append.mpr ⟨h, ?_, fun x hx y hy => ?_⟩
  · exact List.pairwise_map.mpr (List.pairwise_of_forall fun _ _ => Nat.le_refl d)
  · obtain ⟨b, -, rfl⟩ := List.mem_map.mp hy
    exact hbound x hx

/-- What joins a queue and what is met lie one step beyond a depth. If nothing waited above that depth,
nothing met lies more than one step beyond what waits. -/
theorem near_append_level {queue : List (α × Nat)} {met : List (γ × Nat)} (hwaits : ∀ x ∈ queue, d ≤ x.2)
    (hmet : ∀ y ∈ met, y.2 ≤ d + 1) (f : β → α) (g : β → γ) (fresh : List β) :
    ∀ x ∈ queue ++ fresh.map fun b => (f b, d + 1), ∀ y ∈ met ++ fresh.map fun b => (g b, d + 1),
      y.2 ≤ x.2 + 1 := by
  intro x hx y hy
  have hx : d ≤ x.2 := by
    rcases List.mem_append.mp hx with hx | hx
    · exact hwaits x hx
    · obtain ⟨b, -, rfl⟩ := List.mem_map.mp hx
      exact Nat.le_succ d
  have hy : y.2 ≤ d + 1 := by
    rcases List.mem_append.mp hy with hy | hy
    · exact hmet y hy
    · obtain ⟨b, -, rfl⟩ := List.mem_map.mp hy
      exact Nat.le_refl _
  omega

end Levels

theorem le_of_isLE_compare {a b : String} (h : (compare a b).isLE = true) : a ≤ b := by
  have hcompare : compare a b = compareOfLessAndEq a b := rfl
  rw [hcompare] at h
  by_cases hlt : a < b
  · exact String.not_lt.mp (String.lt_asymm hlt)
  · unfold compareOfLessAndEq at h
    rw [if_neg hlt] at h
    by_cases heq : a = b
    · exact heq ▸ String.le_refl a
    · rw [if_neg heq] at h
      cases h

/-- Of the keys at one node in ascending order the far ends ascend. -/
theorem EdgeKey.far_le_far {a b : EdgeKey} {direction : Direction}
    (hnear : a.near direction = b.near direction) (h : compare a b = .lt) : a.far direction ≤ b.far direction := by
  have hlex : (compare a.source b.source).then
      ((compare a.target b.target).then (compare a.kind.rank b.kind.rank)) = .lt := h
  have hle : (compare (a.far direction) (b.far direction)).isLE := by
    cases direction with
    | outgoing =>
        have hsource : compare a.source b.source = .eq := Std.compare_eq_iff_eq.mpr hnear
        rw [hsource] at hlex
        show (compare a.target b.target).isLE = true
        cases htarget : compare a.target b.target <;> simp_all
    | incoming =>
        show (compare a.source b.source).isLE = true
        cases hsource : compare a.source b.source <;> simp_all
  exact le_of_isLE_compare hle

namespace Graph

section Discover

variable {seen : Std.TreeSet String} {ids : List String}

/-- Those are discovered that were not seen. -/
theorem mem_discover : id ∈ (discover seen ids).1 ↔ id ∈ ids ∧ id ∉ seen := by
  induction ids generalizing seen with
  | nil => simp [discover]
  | cons first rest ih =>
      unfold discover
      split
      · rename_i hseen
        have hseen : first ∈ seen := Std.TreeSet.mem_iff_contains.mpr hseen
        rw [ih, List.mem_cons]
        constructor
        · exact fun ⟨hid, hnot⟩ => ⟨.inr hid, hnot⟩
        · rintro ⟨rfl | hid, hnot⟩
          · exact absurd hseen hnot
          · exact ⟨hid, hnot⟩
      · rename_i hnew
        have hnew : first ∉ seen := fun h => hnew (Std.TreeSet.mem_iff_contains.mp h)
        rw [List.mem_cons, ih, List.mem_cons, Std.TreeSet.mem_insert, Std.LawfulEqCmp.compare_eq_iff_eq]
        constructor
        · rintro (rfl | ⟨hid, hnot⟩)
          · exact ⟨.inl rfl, hnew⟩
          · exact ⟨.inr hid, fun h => hnot (.inr h)⟩
        · rintro ⟨rfl | hid, hnot⟩
          · exact .inl rfl
          · -- An identifier that comes twice is discovered where it comes first.
            by_cases heq : first = id
            · exact .inl heq.symm
            · exact .inr ⟨hid, not_or.mpr ⟨heq, hnot⟩⟩

/-- What was seen and what was discovered is seen. -/
theorem mem_discover_seen : id ∈ (discover seen ids).2 ↔ id ∈ seen ∨ id ∈ ids := by
  induction ids generalizing seen with
  | nil => simp [discover]
  | cons first rest ih =>
      unfold discover
      split
      · rename_i hseen
        have hseen : first ∈ seen := Std.TreeSet.mem_iff_contains.mpr hseen
        rw [ih, List.mem_cons]
        constructor
        · exact Or.imp_right .inr
        · rintro (h | rfl | h)
          · exact .inl h
          · exact .inl hseen
          · exact .inr h
      · rw [ih, List.mem_cons, Std.TreeSet.mem_insert, Std.LawfulEqCmp.compare_eq_iff_eq, eq_comm,
          or_left_comm, or_assoc]

/-- Each is discovered once. -/
theorem nodup_discover : (discover seen ids).1.Nodup := by
  induction ids generalizing seen with
  | nil => exact List.nodup_nil
  | cons first rest ih =>
      unfold discover
      split
      · exact ih
      · refine List.nodup_cons.mpr ⟨fun hmem => ?_, ih⟩
        have hnot := (mem_discover.mp hmem).2
        rw [Std.TreeSet.mem_insert] at hnot
        exact hnot (.inl Std.ReflCmp.compare_self)

theorem discover_sublist : (discover seen ids).1.Sublist ids := by
  induction ids generalizing seen with
  | nil => exact List.Sublist.refl []
  | cons first rest ih =>
      unfold discover
      split
      · exact ih.cons first
      · exact ih.cons_cons first

end Discover

/-! ## The relations of a graph -/

variable {g : Graph} {direction : Direction} {kinds : Option (List EdgeKind)}

/-- In the direction an edge leads from one node to the other. Where relations are given it is of one of
them. -/
def Leads (g : Graph) (direction : Direction) (kinds : Option (List EdgeKind)) (a b : String) : Prop :=
  ∃ e, g.edge? e.key = some e ∧ (∀ ks ∈ kinds, e.kind ∈ ks) ∧
    e.key.near direction = a ∧ e.key.far direction = b

/-- How many edges there are at nodes that have not been taken. -/
def left (g : Graph) (direction : Direction) (taken : List String) : Nat :=
  g.edgeList.countP fun e => e.key.near direction ∉ taken

theorem left_nil (g : Graph) (direction : Direction) : g.left direction [] = g.edges.size := by
  have hall : g.left direction [] = g.edgeList.length := by simp [left]
  rw [hall, edgeList, values_eq_map, List.length_map, Std.TreeMap.length_toList]

/-- The neighbours are the far ends of the edges at the node. -/
theorem neighbors_eq (g : Graph) (id : String) (direction : Direction) (kinds : Option (List EdgeKind)) :
    g.neighbors id direction kinds =
      ((g.adjacent id direction).filter fun e => kinds.all fun ks => ks.contains e.kind).map
        fun e => e.key.far direction := by
  cases direction <;> rfl

namespace IsIndexed

theorem mem_neighbors (h : g.IsIndexed) {a b : String} :
    b ∈ g.neighbors a direction kinds ↔ g.Leads direction kinds a b := by
  rw [neighbors_eq, h.adjacent_eq]
  simp only [Leads, List.mem_map, List.mem_filter, h.mem_edgeList, decide_eq_true_eq, Option.all_eq_true,
    List.contains_iff_mem, Option.mem_def]
  constructor
  · rintro ⟨e, ⟨⟨he, hnear⟩, hkind⟩, hfar⟩
    exact ⟨e, he, hkind, hnear, hfar⟩
  · rintro ⟨e, he, hkind, hnear, hfar⟩
    exact ⟨e, ⟨⟨he, hnear⟩, hkind⟩, hfar⟩

theorem ascends_neighbors (h : g.IsIndexed) (a : String) :
    (g.neighbors a direction kinds).Pairwise (· ≤ ·) := by
  rw [neighbors_eq, List.pairwise_map]
  apply List.Pairwise.filter
  rw [adjacent, List.pairwise_filterMap]
  refine (g.ordered_keysAt a direction).imp_of_mem fun {k l} hk hl hlt d hd e he => ?_
  rw [h.key_eq hd, h.key_eq he]
  exact EdgeKey.far_le_far ((h.mem_keysAt.mp hk).2.trans (h.mem_keysAt.mp hl).2.symm) hlt

/-- **A graph answers** where its edges lead, and has no more to answer than it has edges. -/
theorem follows (h : g.IsIndexed) (direction : Direction) (kinds : Option (List EdgeKind)) :
    Follows (g.neighbors · direction kinds) (g.Leads direction kinds) (g.left direction) where
  mem_iff := h.mem_neighbors
  ascends := h.ascends_neighbors
  left_append {taken a} ha := by
    -- The edges at the node are left before it is taken, and none of them after.
    have hedges : (g.neighbors a direction kinds).length ≤
        g.edgeList.countP fun e => e.key.near direction = a := by
      rw [neighbors_eq, List.length_map, h.adjacent_eq, List.countP_eq_length_filter]
      exact List.length_filter_le _ _
    have hsplit : g.left direction taken =
        (g.edgeList.countP fun e => e.key.near direction = a) + g.left direction (taken ++ [a]) := by
      unfold left
      induction g.edgeList with
      | nil => rfl
      | cons e rest ih =>
          rw [List.countP_cons, List.countP_cons, List.countP_cons, ih]
          by_cases hnear : e.key.near direction = a
          · simp [hnear, ha]
            omega
          · by_cases htaken : e.key.near direction ∈ taken
            · simp [hnear, htaken]
            · simp [hnear, htaken]
              omega
    calc (g.neighbors a direction kinds).length + g.left direction (taken ++ [a])
        ≤ (g.edgeList.countP fun e => e.key.near direction = a) + g.left direction (taken ++ [a]) :=
          Nat.add_le_add_right hedges _
      _ = g.left direction taken := hsplit.symm

end IsIndexed

end Graph

end ProgramGraph
