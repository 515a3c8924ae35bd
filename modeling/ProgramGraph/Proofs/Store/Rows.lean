import ProgramGraph.Proofs.Map
import ProgramGraph.Proofs.Property.Core
import ProgramGraph.Store.Rows

set_option autoImplicit false

/-! # Reading rows

Where every row decodes, what is read from rows can be said without rows: a search for nodes
gives a page of the stored nodes that its filter accepts, by identifier, and a search for edges
gives the stored edges whose keys are selected.
-/

namespace ProgramGraph

theorem NodeRow.toNode_eq_ok {id : String} {row : NodeRow} {n : Node}
    (h : row.toNode id = .ok n) : n.id = id ∧ n.kind = row.kind := by
  unfold NodeRow.toNode at h
  cases hread : readProperties row.properties with
  | error failure => rw [hread] at h; cases h
  | ok props =>
      rw [hread] at h
      exact Node.ofProperties_eq_ok h

theorem EdgeRow.toEdge_eq_ok {key : EdgeKey} {row : EdgeRow} {e : Edge}
    (h : row.toEdge key = .ok e) : e.key = key := by
  unfold EdgeRow.toEdge at h
  cases hread : readProperties row.properties with
  | error failure => rw [hread] at h; cases h
  | ok props =>
      rw [hread] at h
      exact Edge.ofProperties_eq_ok h

/-- What can be read of some items. -/
def readable {α β : Type} (read : α → Outcome β) (items : List α) : List β :=
  items.filterMap fun a => (read a).toOption

theorem toOption_eq_some {α : Type} {x : Outcome α} {a : α} :
    x.toOption = some a ↔ x = .ok a := by
  cases x <;> simp [Except.toOption]

theorem isOk_iff {α : Type} {x : Outcome α} : x.isOk = true ↔ ∃ a, x = .ok a := by
  cases x <;> simp [Except.isOk, Except.toBool]

/-- Both of two steps succeed if one after the other does. -/
theorem bind_eq_ok {α β : Type} {x : Outcome α} {f : α → Outcome β} {b : β} :
    x >>= f = .ok b ↔ ∃ a, x = .ok a ∧ f a = .ok b := by
  cases x <;> simp [bind, Except.bind]

/-- One of two steps fails if one after the other does. -/
theorem bind_eq_error {α β : Type} {x : Outcome α} {f : α → Outcome β} {failure : Failure} :
    x >>= f = .error failure ↔ x = .error failure ∨ ∃ a, x = .ok a ∧ f a = .error failure := by
  cases x <;> simp [bind, Except.bind]

theorem mem_readable {α β : Type} {read : α → Outcome β} {items : List α} {b : β} :
    b ∈ readable read items ↔ ∃ a ∈ items, read a = .ok b := by
  simp only [readable, List.mem_filterMap, toOption_eq_some]

theorem readable_cons {α β : Type} {read : α → Outcome β} {a : α} {b : β} (rest : List α)
    (h : read a = .ok b) : readable read (a :: rest) = b :: readable read rest := by
  simp [readable, h, Except.toOption]

/-- Items that are read one by one can all be read. -/
theorem exists_of_mapM_eq_ok {α β : Type} {read : α → Outcome β} {items : List α} {found : List β}
    (h : items.mapM read = .ok found) : ∀ a ∈ items, ∃ b, read a = .ok b := by
  induction items generalizing found with
  | nil => exact fun a ha => nomatch ha
  | cons a rest ih =>
      rw [List.mapM_cons] at h
      obtain ⟨b, hb, h⟩ := bind_eq_ok.mp h
      obtain ⟨others, hothers, -⟩ := bind_eq_ok.mp h
      exact List.forall_mem_cons.mpr ⟨⟨b, hb⟩, ih hothers⟩

/-- Items that can all be read are read one by one. -/
theorem mapM_eq_readable {α β : Type} {read : α → Outcome β} {items : List α}
    (h : ∀ a ∈ items, ∃ b, read a = .ok b) : items.mapM read = .ok (readable read items) := by
  induction items with
  | nil => rfl
  | cons a rest ih =>
      obtain ⟨b, hb⟩ := h a List.mem_cons_self
      rw [List.mapM_cons, hb, ih fun x hx => h x (List.mem_cons_of_mem _ hx), readable_cons rest hb]
      rfl

theorem eq_readable_of_mapM_eq_ok {α β : Type} {read : α → Outcome β} {items : List α} {found : List β}
    (h : items.mapM read = .ok found) : found = readable read items :=
  Except.ok.inj (h.symm.trans (mapM_eq_readable (exists_of_mapM_eq_ok h)))

namespace Rows

/-- A node is stored. -/
def HoldsNode (rows : Rows) (n : Node) : Prop :=
  ∃ row, rows.nodes[n.id]? = some row ∧ row.toNode n.id = .ok n

/-- An edge is stored. -/
def HoldsEdge (rows : Rows) (e : Edge) : Prop :=
  ∃ row, rows.edges[e.key]? = some row ∧ row.toEdge e.key = .ok e

/-- Every row decodes. -/
structure Decodes (rows : Rows) : Prop where
  node : ∀ id (row : NodeRow), rows.nodes[id]? = some row → ∃ n, row.toNode id = .ok n
  edge : ∀ key (row : EdgeRow), rows.edges[key]? = some row → ∃ e, row.toEdge key = .ok e

/-- The database answers for every row whether it passes a filter, and lets through each row
whose node the filter accepts. -/
def Admits (rows : Rows) (filter : Filter) : Prop :=
  ∀ id (row : NodeRow) props n, rows.nodes[id]? = some row →
    readProperties row.properties = .ok props → row.toNode id = .ok n →
    ∃ admitted, filter.admits props = .ok admitted ∧ (filter.accepts n = true → admitted = true)

/-- Whether every row decodes is found out row by row. -/
theorem decodes_iff {rows : Rows} :
    rows.Decodes ↔ (rows.nodes.toList.all fun entry => (entry.2.toNode entry.1).isOk) = true ∧
      (rows.edges.toList.all fun entry => (entry.2.toEdge entry.1).isOk) = true := by
  simp only [List.all_eq_true, Prod.forall, Std.TreeMap.mem_toList_iff_getElem?_eq_some,
    isOk_iff]
  exact ⟨fun h => ⟨h.node, h.edge⟩, fun h => ⟨h.1, h.2⟩⟩

instance (rows : Rows) : Decidable rows.Decodes := decidable_of_iff _ decodes_iff.symm

/-- The database judges one row soundly. -/
def judgesSoundly (filter : Filter) (id : String) (row : NodeRow) : Bool :=
  match readProperties row.properties, row.toNode id with
  | .ok props, .ok n =>
      match filter.admits props with
      | .ok admitted => !filter.accepts n || admitted
      | .error _ => false
  | _, _ => true

/-- Whether a filter is admitted is found out row by row. -/
theorem admits_iff {rows : Rows} {filter : Filter} :
    rows.Admits filter ↔
      (rows.nodes.toList.all fun entry => judgesSoundly filter entry.1 entry.2) = true := by
  simp only [List.all_eq_true, Prod.forall, Std.TreeMap.mem_toList_iff_getElem?_eq_some]
  refine forall_congr' fun id => forall_congr' fun row => ⟨fun h hrow => ?_, fun h => ?_⟩
  · unfold judgesSoundly
    split
    · rename_i props n hread hn
      obtain ⟨admitted, hadmits, hsound⟩ := h props n hrow hread hn
      rw [hadmits]
      cases haccepts : filter.accepts n with
      | false => rfl
      | true => exact hsound haccepts
    · rfl
  · intro props n hrow hread hn
    have hsound := h hrow
    simp only [judgesSoundly, hread, hn] at hsound
    cases hadmits : filter.admits props with
    | error failure => simp [hadmits] at hsound
    | ok admitted => exact ⟨admitted, rfl, fun haccepts => by simpa [hadmits, haccepts] using hsound⟩

instance (rows : Rows) (filter : Filter) : Decidable (rows.Admits filter) :=
  decidable_of_iff _ admits_iff.symm

/-- A filter without conditions admits every row. -/
theorem admits_nil (rows : Rows) : rows.Admits [] :=
  fun _ _ _ _ _ _ _ => ⟨true, rfl, fun _ => rfl⟩

/-! ## Nodes -/

/-- What is found has the identifier. -/
theorem id_eq_of_node? {rows : Rows} {id : String} {n : Node} (h : rows.node? id = .ok (some n)) : n.id = id := by
  unfold node? at h
  split at h
  · obtain ⟨m, hm, hn⟩ := map_eq_ok.mp h
    exact Option.some.inj hn ▸ (NodeRow.toNode_eq_ok hm).1
  · cases h

/-- The nodes that rows decode to. -/
def decoded (entries : List (String × NodeRow)) : List Node :=
  readable (fun entry => entry.2.toNode entry.1) entries

theorem mem_nodeRows {rows : Rows} {kind : Option NodeKind} {id : String} {row : NodeRow} :
    (id, row) ∈ rows.nodeRows kind ↔
      rows.nodes[id]? = some row ∧ kind.all (fun k => row.kind = k) = true := by
  cases kind with
  | none => simp [nodeRows, Std.TreeMap.mem_toList_iff_getElem?_eq_some]
  | some k => simp [nodeRows, Std.TreeMap.mem_toList_iff_getElem?_eq_some]

/-- Texts are compared by their order. -/
theorem compare_eq_lt {a b : String} : compare a b = .lt ↔ a < b :=
  compareOfLessAndEq_eq_lt

theorem pairwise_nodeRows (rows : Rows) (kind : Option NodeKind) :
    (rows.nodeRows kind).Pairwise fun a b => a.1 < b.1 := by
  have hall : rows.nodes.toList.Pairwise fun a b => a.1 < b.1 :=
    Std.TreeMap.ordered_keys_toList.imp fun h => compare_eq_lt.mp h
  cases kind with
  | none => exact hall
  | some k => exact hall.filter _

/-- The nodes of a kind, or all nodes, by identifier. -/
def nodeList (rows : Rows) (kind : Option NodeKind) : List Node := decoded (rows.nodeRows kind)

theorem mem_nodeList {rows : Rows} {kind : Option NodeKind} {n : Node} :
    n ∈ rows.nodeList kind ↔ rows.HoldsNode n ∧ kind.all (fun k => n.kind = k) = true := by
  rw [nodeList, decoded, mem_readable]
  constructor
  · rintro ⟨⟨id, row⟩, hmem, hread⟩
    obtain ⟨rfl, hkind⟩ := NodeRow.toNode_eq_ok hread
    obtain ⟨hrow, hall⟩ := mem_nodeRows.mp hmem
    exact ⟨⟨row, hrow, hread⟩, hkind ▸ hall⟩
  · rintro ⟨⟨row, hrow, hread⟩, hall⟩
    obtain ⟨-, hkind⟩ := NodeRow.toNode_eq_ok hread
    exact ⟨(n.id, row), mem_nodeRows.mpr ⟨hrow, hkind ▸ hall⟩, hread⟩

theorem pairwise_nodeList (rows : Rows) (kind : Option NodeKind) :
    (rows.nodeList kind).Pairwise fun a b => a.id < b.id := by
  refine (rows.pairwise_nodeRows kind).filterMap _ fun a b hlt n hn m hm => ?_
  have hn := (NodeRow.toNode_eq_ok (toOption_eq_some.mp hn)).1
  have hm := (NodeRow.toNode_eq_ok (toOption_eq_some.mp hm)).1
  rw [hn, hm]
  exact hlt

theorem length_nodeRows (rows : Rows) (kind : Option NodeKind) :
    (rows.nodeRows kind).length = rows.nodeCount kind := by
  cases kind with
  | none => exact Std.TreeMap.length_toList
  | some k =>
      show (rows.nodes.toList.filter fun entry => entry.2.kind = k).length =
        (rows.nodes.values.filter fun row => row.kind = k).length
      rw [values_eq_map, List.filter_map, List.length_map]
      rfl

theorem length_nodeList_le (rows : Rows) (kind : Option NodeKind) :
    (rows.nodeList kind).length ≤ rows.nodeCount kind :=
  Nat.le_trans (List.length_filterMap_le _ _) (Nat.le_of_eq (rows.length_nodeRows kind))

/-- A row that decodes to a node and that the database judges soundly. -/
def IsJudged (filter : Filter) (entry : String × NodeRow) (n : Node) : Prop :=
  ∃ props admitted, readProperties entry.2.properties = .ok props ∧
    Node.ofRecord ⟨entry.1, entry.2.kind, props⟩ = .ok n ∧
      filter.admits props = .ok admitted ∧ (filter.accepts n = true → admitted = true)

theorem IsJudged.toNode_eq {filter : Filter} {entry : String × NodeRow} {n : Node}
    (h : IsJudged filter entry n) : entry.2.toNode entry.1 = .ok n := by
  obtain ⟨props, admitted, hprops, hn, -, -⟩ := h
  unfold NodeRow.toNode
  rw [hprops]
  exact hn

/-- What a page does with its first row: that it is held back shows nowhere. -/
theorem page_cons {filter : Filter} {limit : Option Nat} {offset : Nat}
    {entry : String × NodeRow} {rest : List (String × NodeRow)} {n : Node} (hlimit : limit ≠ some 0)
    (h : IsJudged filter entry n) :
    page filter limit offset (entry :: rest) =
      if filter.accepts n then
        match offset with
        | skipped + 1 => page filter limit skipped rest
        | 0 => (page filter (limit.map (· - 1)) 0 rest).map (n :: ·)
      else page filter limit offset rest := by
  obtain ⟨id, row⟩ := entry
  obtain ⟨props, admitted, hprops, hn, hadmits, hsound⟩ := h
  rw [page.eq_3 _ _ _ _ _ _ hlimit, hprops]
  simp only [bind, Except.bind, hadmits, hn]
  cases admitted with
  | false =>
      have hnot : filter.accepts n = false := by
        cases haccepts : filter.accepts n with
        | false => rfl
        | true => exact absurd (hsound haccepts) Bool.false_ne_true
      simp [hnot]
  | true => 
      simp
      rfl

/-- **A page of the accepted nodes.** Rows that the database holds back would not have been
accepted, so that decoding all of them first makes no difference. -/
theorem page_eq {filter : Filter} {entries : List (String × NodeRow)}
    (h : ∀ entry ∈ entries, ∃ n, IsJudged filter entry n)
    (limit : Option Nat) (offset : Nat) :
    page filter limit offset entries =
      .ok (let rest := ((decoded entries).filter filter.accepts).drop offset
        limit.elim rest rest.take) := by
  induction entries generalizing limit offset with
  | nil =>
      rcases limit with _ | _ | bound <;> simp [page, decoded, readable]
  | cons entry rest ih =>
      have hrest := ih fun entry hentry => h entry (List.mem_cons_of_mem _ hentry)
      obtain ⟨n, hn⟩ := h _ List.mem_cons_self
      have hdecoded : decoded (entry :: rest) = n :: decoded rest := readable_cons rest hn.toNode_eq
      by_cases hlimit : limit = some 0
      · subst hlimit
        -- a page of no nodes is complete before any row is decoded
        simp [page]
      · rw [page_cons hlimit hn, hdecoded]
        by_cases haccepts : filter.accepts n = true
        · rw [if_pos haccepts, List.filter_cons_of_pos haccepts]
          cases offset with
          | zero =>
              rw [hrest]
              cases limit with
              | none => rfl
              | some bound =>
                  obtain ⟨k, rfl⟩ : ∃ k, bound = k + 1 :=
                    ⟨bound - 1, by have : bound ≠ 0 := fun h => hlimit (h ▸ rfl); omega⟩
                  rfl
          | succ skipped => exact hrest limit skipped
        · rw [if_neg haccepts, List.filter_cons_of_neg haccepts, hrest]

/-! ## Edges -/

theorem foldr_edges (rows : Rows) (selected : EdgeKey → Bool) :
    rows.edges.foldr (fun key row acc => if selected key then (key, row) :: acc else acc) [] =
      rows.edges.toList.filter fun entry => selected entry.1 := by
  rw [Std.TreeMap.foldr_eq_foldr_toList]
  induction rows.edges.toList with
  | nil => rfl
  | cons entry rest ih =>
      rw [List.foldr_cons, ih]
      by_cases h : selected entry.1 = true <;> simp [h]

theorem mem_edgeRows {rows : Rows} {selected : EdgeKey → Bool} {key : EdgeKey} {row : EdgeRow} :
    (key, row) ∈ rows.edgeRows selected ↔ rows.edges[key]? = some row ∧ selected key = true := by
  rw [edgeRows, foldr_edges, List.mem_mergeSort, List.mem_filter,
    Std.TreeMap.mem_toList_iff_getElem?_eq_some]

/-- The stored edges whose keys are selected. -/
def edgeList (rows : Rows) (selected : EdgeKey → Bool) : List Edge :=
  readable (fun entry => entry.2.toEdge entry.1) (rows.edgeRows selected)

theorem mem_edgeList {rows : Rows} {selected : EdgeKey → Bool} {e : Edge} :
    e ∈ rows.edgeList selected ↔ rows.HoldsEdge e ∧ selected e.key = true := by
  rw [edgeList, mem_readable]
  constructor
  · rintro ⟨⟨key, row⟩, hmem, hread⟩
    obtain rfl := EdgeRow.toEdge_eq_ok hread
    obtain ⟨hrow, hselected⟩ := mem_edgeRows.mp hmem
    exact ⟨⟨row, hrow, hread⟩, hselected⟩
  · rintro ⟨⟨row, hrow, hread⟩, hselected⟩
    exact ⟨(e.key, row), mem_edgeRows.mpr ⟨hrow, hselected⟩, hread⟩

/-- Edges that are looked up by their source leave it. -/
theorem source_eq_of_edgesFrom {rows : Rows} {source : String} {target : Option String} {kind : Option EdgeKind}
    {edges : List Edge} (h : rows.edgesFrom source target kind = .ok edges) {e : Edge} (he : e ∈ edges) :
    e.source = source := by
  rw [eq_readable_of_mapM_eq_ok h, mem_readable] at he
  obtain ⟨⟨key, row⟩, hrow, hread⟩ := he
  have hkey := (mem_edgeRows.mp hrow).2
  rw [← EdgeRow.toEdge_eq_ok hread] at hkey
  simp only [Bool.and_eq_true, decide_eq_true_eq] at hkey
  exact hkey.1.1

/-- A search for edges succeeds where every row decodes. -/
theorem Decodes.edgesBy_eq {rows : Rows} (h : rows.Decodes) (selected : EdgeKey → Bool) :
    rows.edgesBy selected = .ok (rows.edgeList selected) := by
  refine mapM_eq_readable fun entry hentry => ?_
  exact h.edge _ _ (mem_edgeRows.mp hentry).1

/-- Where every row decodes, a question about keys of selected edges is one about the keys of
the rows. -/
theorem Decodes.any_edgeList {rows : Rows} (h : rows.Decodes) (selected p : EdgeKey → Bool) :
    ((rows.edgeList selected).any fun e => p e.key) =
      rows.edges.keys.any fun key => selected key && p key := by
  rw [Bool.eq_iff_iff, List.any_eq_true, List.any_eq_true]
  constructor
  · rintro ⟨e, he, hp⟩
    obtain ⟨⟨row, hrow, -⟩, hselected⟩ := mem_edgeList.mp he
    have hmem : e.key ∈ rows.edges := Std.TreeMap.mem_iff_isSome_getElem?.mpr (by simp [hrow])
    exact ⟨e.key, Std.TreeMap.mem_keys.mpr hmem, by simp [hselected, hp]⟩
  · rintro ⟨key, hkey, hboth⟩
    obtain ⟨hselected, hp⟩ := Bool.and_eq_true_iff.mp hboth
    have hmem := Std.TreeMap.mem_iff_isSome_getElem?.mp (Std.TreeMap.mem_keys.mp hkey)
    obtain ⟨row, hrow⟩ := Option.isSome_iff_exists.mp hmem
    obtain ⟨e, he⟩ := h.edge key row hrow
    obtain rfl := EdgeRow.toEdge_eq_ok he
    exact ⟨e, mem_edgeList.mpr ⟨⟨row, hrow, he⟩, hselected⟩, hp⟩

end Rows

end ProgramGraph
