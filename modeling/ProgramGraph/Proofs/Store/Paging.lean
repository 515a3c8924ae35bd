import ProgramGraph.Proofs.Store.Filing
import ProgramGraph.Proofs.Store.KindIndex

set_option autoImplicit false

/-! # Pages

A search for nodes gives one page of what it finds. The two kinds of stores come to it in different ways. A table
goes through its rows one after the other and stops when the page is full: it counts down what is to be passed
over, skips what the filter rejects, and leaves out rows that the database holds back. A keyed store goes through
the marks under one kind or under all, sorts the identifiers, fetches every node, and cuts the page out at the end.

Both give pages of one and the same list (`Store.Pages`): the stored nodes of the kind that the filter accepts, by
the bytes of their identifiers. So pages that follow each other give all of them and none twice, and stores that
hold the same nodes have the same pages (`Store.Pages.eq_of_same`).

For a table this asks that its node rows can be read. For a keyed store it also asks that no identifier has been
saved under two kinds. That nodes can be read is asked of the store as it is, not of what was saved earlier: what
stands under a key was saved with the identifier and the kind that are called for (`ByteMap.KeepsNodes`), and a
reader gives back these two if it gives back anything.
-/

namespace ProgramGraph

open ProgramGraph.Text

/-! ## Pages of one list -/

/-- Windows of one size that follow each other are together the beginning of the list. -/
theorem flatMap_windows {α : Type} (items : List α) (size count : Nat) :
    ((List.range count).flatMap fun i => (items.drop (i * size)).take size) = items.take (count * size) := by
  induction count with
  | zero => simp
  | succ count ih =>
      rw [List.range_succ, List.flatMap_append, ih, List.flatMap_singleton, Nat.succ_mul, List.take_add]

namespace Store

/-- Pages of one size that follow each other, from the first on. -/
def pages (s : Store) (kind : Option NodeKind) (filter : Filter) (size count : Nat) : Outcome (List (List Node)) :=
  (List.range count).mapM fun i => s.findNodes kind filter (some size) (i * size)

/-- **All pages are pages of one list**: the stored nodes of the kind that the filter accepts, by identifier. -/
structure Pages (s : Store) (kind : Option NodeKind) (filter : Filter) (all : List Node) : Prop where
  ascends : all.Pairwise fun a b => utf8 a.id < utf8 b.id
  mem_iff : ∀ n, n ∈ all ↔
    s.node? n.id = .ok (some n) ∧ kind.all (fun k => n.kind = k) = true ∧ filter.accepts n = true
  page : ∀ limit offset, s.findNodes kind filter limit offset =
    .ok (let rest := all.drop offset
      limit.elim rest rest.take)
  /-- Pages that follow each other give the list from its beginning. -/
  consecutive : ∀ size count, (s.pages kind filter size count).map List.flatten = .ok (all.take (count * size))
  /-- Enough pages that are not empty give the whole list. -/
  exhausted : ∀ size count, 0 < size → all.length ≤ count →
    (s.pages kind filter size count).map List.flatten = .ok all

namespace Pages

variable {s s' : Store} {kind : Option NodeKind} {filter : Filter} {all all' : List Node}

/-- What each page is decides what pages are together. -/
theorem of_page (ascends : all.Pairwise fun a b => utf8 a.id < utf8 b.id)
    (mem_iff : ∀ n, n ∈ all ↔
      s.node? n.id = .ok (some n) ∧ kind.all (fun k => n.kind = k) = true ∧ filter.accepts n = true)
    (page : ∀ limit offset, s.findNodes kind filter limit offset =
      .ok (let rest := all.drop offset
        limit.elim rest rest.take)) : s.Pages kind filter all := by
  have consecutive : ∀ size count,
      (s.pages kind filter size count).map List.flatten = .ok (all.take (count * size)) := by
    intro size count
    have hpages : s.pages kind filter size count =
        .ok ((List.range count).map fun i => (all.drop (i * size)).take size) := by
      unfold pages
      simp only [page]
      exact List.mapM_pure
    rw [hpages, ← flatMap_windows, List.flatMap_def]
    rfl
  refine ⟨ascends, mem_iff, page, consecutive, fun size count hsize hcount => ?_⟩
  have hall : all.length ≤ count * size := calc
    all.length ≤ count * 1 := by omega
    _ ≤ count * size := Nat.mul_le_mul_left count hsize
  rw [consecutive, List.take_of_length_le hall]

/-- **Stores that hold the same nodes** have the same pages. -/
theorem eq_of_same (h : s.Pages kind filter all) (h' : s'.Pages kind filter all')
    (hsame : ∀ id, s.node? id = s'.node? id) : all = all' := by
  have hnodup : ∀ {l : List Node}, (l.Pairwise fun a b => utf8 a.id < utf8 b.id) → l.Nodup := by
    intro l hl
    refine hl.imp ?_
    rintro a b hlt rfl
    exact List.lt_irrefl _ hlt
  have hmem : ∀ n, n ∈ all ↔ n ∈ all' := by
    intro n
    rw [h.mem_iff, h'.mem_iff, hsame]
  have hperm : all.Perm all' := (List.perm_ext_iff_of_nodup (hnodup h.ascends) (hnodup h'.ascends)).mpr hmem
  refine hperm.eq_of_pairwise (fun a b _ _ hab hba => ?_) h.ascends h'.ascends
  exact absurd (List.lt_trans hab hba) (List.lt_irrefl _)

end Pages

end Store

/-! ## Pages of a table -/

namespace Table

variable {t : Table}

/-- A node is found just if it is stored. -/
theorem node?_eq_ok_iff (hstate : t.state.IsReadable) {n : Node} :
    t.node? n.id = .ok (some n) ↔ t.rows.HoldsNode n := by
  have hrows : t.node? n.id = t.rows.node? n.id := by
    unfold node?
    rw [Statement.read_eq hstate]
    rfl
  rw [hrows, Rows.node?, Rows.HoldsNode]
  cases t.rows.nodes[n.id]? with
  | none => simp
  | some row =>
      show (row.toNode n.id).map some = .ok (some n) ↔ _
      rw [map_eq_ok]
      simp

/-- **A table** gives pages of the nodes in its rows. -/
theorem pages (hstate : t.state.IsReadable)
    (hnodes : ∀ id (row : NodeRow), t.rows.nodes[id]? = some row → ∃ n, row.toNode id = .ok n) {filter : Filter}
    (hadmits : t.rows.Admits filter) (kind : Option NodeKind) :
    (Store.table t).Pages kind filter ((t.rows.nodeList kind).filter filter.accepts) := by
  apply Store.Pages.of_page
  · exact List.Pairwise.filter _ ((t.rows.pairwise_nodeList kind).imp fun h => utf8_lt_utf8.mpr h)
  · intro n
    show _ ↔ t.node? n.id = .ok (some n) ∧ _
    rw [List.mem_filter, Rows.mem_nodeList, node?_eq_ok_iff hstate, and_assoc]
  · intro limit offset
    exact t.findNodes_eq_of_nodes hstate hnodes hadmits kind limit offset

end Table

/-! ## Pages of a keyed store -/

/-- What an operation saves stays for ever, and the binary encoding has forms for the nodes among it. -/
structure Store.Operation.NodesStay (op : Store.Operation) : Prop where
  nodes : ∀ n ∈ op.savedNodes, n.Fits
  life : ∀ g options d, op = .saveGraph g options → options.life ≠ .span d

namespace Keyed

variable {k : Keyed} {kindOf : String → NodeKind} {filled : Slot → Option Stored}

/-- Every node that is stored can be read. -/
def NodesDecode (k : Keyed) : Prop :=
  ∀ entry ∈ k.liveUnder (k.layout.start ["node"]), ∃ n, decodeNode entry.2 = .ok n

/-- A node that was saved is read with its identifier and its kind, if it can be read at all. -/
theorem NodesDecode.readsAs (hdecodes : k.NodesDecode) {n : Node} (hfits : n.Fits)
    (hentry : k.entries[(Slot.node n.id).bytes k.layout]? = some (Envelope.pack 0 (MsgPack.encode n.toWire))) :
    ∃ d, n.ReadsAs d := by
  have hlive : k.live? (k.layout.node n.id) = some (MsgPack.encode n.toWire) := by
    show (k.entries[(Slot.node n.id).bytes k.layout]?).bind _ = _
    rw [hentry, Option.bind_some, Envelope.unpack?_pack]
  have hstart : k.layout.start ["node"] <+: (Slot.node n.id).bytes k.layout :=
    Slot.start_node_isPrefix.mpr ⟨n.id, rfl⟩
  obtain ⟨d, hd⟩ := hdecodes _ (mem_liveUnder.mpr ⟨hstart, hlive⟩)
  exact ⟨d, hfits.readsAs hd⟩

/-- **In every store that can come about** without a second kind of one identifier, and whose nodes can be read,
nodes and marks are as the kinds call for. -/
theorem ReachableBy.isIndexed_of_decode (h : k.ReachableBy fun op => op.NodesStay ∧ op.KeepsKinds kindOf)
    (hdecodes : k.NodesDecode) : ∃ filled, k.entries.IsIndexed k.layout kindOf filled := by
  let kept (n : Node) : Prop := n.Fits ∧ n.kind = kindOf n.id
  have hkinds : ∀ n, kept n → n.kind = kindOf n.id := fun _ hn => hn.2
  have hnodes : ∀ op : Store.Operation, op.NodesStay ∧ op.KeepsKinds kindOf → ∀ n ∈ op.savedNodes, kept n :=
    fun _ hop n hn => ⟨hop.1.nodes n hn, hop.2 n hn⟩
  obtain ⟨filled, hkeeps, hmarks⟩ := h.keepsNodes hnodes fun _ _ _ _ hop => hop.1.life _ _ _
  exact ⟨_, hkeeps.isIndexed (fun _ hn hentry => hdecodes.readsAs hn.1 hentry) hkinds (hmarks kindOf hkinds)⟩

/-- **A keyed store** gives pages of its nodes where marks agree with them. -/
theorem MarksAgree.pages (hagree : k.MarksAgree) (h : k.entries.HoldsNodes k.layout filled)
    (kind : Option NodeKind) (filter : Filter) :
    (Store.keyed k).Pages kind filter (((k.sortedIds kind).filterMap (nodeIn filled)).filter filter.accepts) := by
  have hids := hagree.enumerates_ids h kind
  have hperm := k.sortedIds_perm kind
  -- sorted and without repetition: strictly ascending
  have hascends : (k.sortedIds kind).Pairwise (· < ·) := by
    have hnodup : (k.sortedIds kind).Nodup := hperm.nodup_iff.mpr hids.nodup
    exact ascends_of_nodup (k.sortedIds_ascend kind) hnodup
  apply Store.Pages.of_page
  · refine List.Pairwise.filter _ (hascends.filterMap _ fun a b hlt n hn m hm => ?_)
    have hn : n.id = a := (nodeIn_spec h a).2 n hn
    have hm : m.id = b := (nodeIn_spec h b).2 m hm
    rw [hn, hm]
    exact utf8_lt_utf8.mpr hlt
  · intro n
    show _ ↔ k.node? n.id = .ok (some n) ∧ _
    rw [List.mem_filter, List.mem_filterMap, stored_iff h, ← and_assoc]
    refine and_congr_left fun _ => ?_
    constructor
    · rintro ⟨id, hid, hn⟩
      obtain rfl := (nodeIn_spec h id).2 n hn
      obtain ⟨d, hd, hkind⟩ := (hids.mem_iff _).mp (hperm.mem_iff.mp hid)
      obtain rfl := Option.some.inj (hn.symm.trans hd)
      exact ⟨hn, hkind⟩
    · rintro ⟨hn, hkind⟩
      exact ⟨n.id, hperm.mem_iff.mpr ((hids.mem_iff _).mpr ⟨n, hn, hkind⟩), hn⟩
  · intro limit offset
    exact findNodes_eq h.toLists (fun id => (nodeIn_spec h id).1) kind filter limit offset

end Keyed

/-! ## Both kinds of stores -/

namespace Store

/-- **Filtered searches give exact pages.** A table whose node rows can be read, and whose database lets through what
the filter accepts, gives pages of one list for every kind and filter, and so does a keyed store in which no
identifier was saved under two kinds and whose nodes can be read. -/
theorem findNodes_pages (kind : Option NodeKind) (filter : Filter) :
    (∀ t : Table, t.state.IsReadable →
      (∀ id (row : NodeRow), t.rows.nodes[id]? = some row → ∃ n, row.toNode id = .ok n) → t.rows.Admits filter →
        ∃ all, (Store.table t).Pages kind filter all) ∧
    ∀ (k : Keyed) (kindOf : String → NodeKind), (k.ReachableBy fun op => op.NodesStay ∧ op.KeepsKinds kindOf) →
      k.NodesDecode → ∃ all, (Store.keyed k).Pages kind filter all := by
  constructor
  · intro t hstate hnodes hadmits
    exact ⟨_, t.pages hstate hnodes hadmits kind⟩
  · intro k kindOf hreachable hdecodes
    obtain ⟨filled, hindexed⟩ := hreachable.isIndexed_of_decode hdecodes
    have hagree : k.MarksAgree := Keyed.marksAgree_of_isIndexed hindexed
    exact ⟨_, hagree.pages hindexed.toHoldsNodes kind filter⟩

/-- Three modules of which the filter rejects the middle one, in a table and in a keyed store. -/
theorem findNodes_pages_threeModules :
    let called (name : String) := Node.ofCore ("module:" ++ name) (.module name name)
    let t := Table.ofRows .inMemory
      (((Rows.empty.putNode (called "a")).putNode (called "b")).putNode (called "c"))
    let k := (((Keyed.ofEntries { KeyedSettings.standard with defaultLife := none } ∅ 0).saveNode
      (called "a")).saveNode (called "b")).saveNode (called "c")
    let filter : Filter := [⟨"name", .ne, .text "b"⟩]
    (filter.accepts (called "a") = true ∧ filter.accepts (called "b") = false) ∧
      t.rows.Admits filter ∧ k.NodesDecode ∧
      (∃ all, (Store.table t).Pages (some .module) filter all) ∧
      ∃ all, (Store.keyed k).Pages (some .module) filter all := by
  intro called t k filter
  have hrows : ∀ id (row : NodeRow), t.rows.nodes[id]? = some row → ∃ n, row.toNode id = .ok n := by
    have hbare : Properties.KeepsFloats ∅ := fun _ _ h => by simp at h
    have happart : ∀ name, (called name).IsApart := fun _ _ _ => rfl
    exact (((Rows.holds_empty.putNode (happart _) hbare).putNode (happart _) hbare).putNode (happart _)
      hbare).decodes.node
  have hadmits : t.rows.Admits filter := by decide +kernel
  have hsaved : ∀ name, (called name).Fits → (Store.Operation.saveNode (called name)).NodesStay ∧
      (Store.Operation.saveNode (called name)).KeepsKinds fun _ => .module := by
    intro name hfits
    refine ⟨⟨fun m hm => ?_, fun _ _ _ h => nomatch h⟩, fun m hm => ?_⟩
    · exact List.mem_singleton.mp hm ▸ hfits
    · exact List.mem_singleton.mp hm ▸ rfl
  have hreachable : k.ReachableBy fun op => op.NodesStay ∧ op.KeepsKinds fun _ => .module :=
    .perform (.perform (.perform (.fresh rfl 0) (hsaved "a" (by decide +kernel)) rfl)
      (hsaved "b" (by decide +kernel)) rfl) (hsaved "c" (by decide +kernel)) rfl
  have hdecodes : k.NodesDecode := by
    have hall : ((k.liveUnder (k.layout.start ["node"])).all fun entry => (Keyed.decodeNode entry.2).isOk) = true := by
      simp only [k, Keyed.liveUnder, ByteMap.scan_eq_filter]
      decide +kernel
    intro entry hentry
    exact isOk_iff.mp (List.all_eq_true.mp hall entry hentry)
  obtain ⟨htable, hkeyed⟩ := findNodes_pages (some .module) filter
  exact ⟨by decide +kernel, hadmits, hdecodes, htable t (.inl rfl) hrows hadmits, hkeyed k _ hreachable hdecodes⟩

end Store

end ProgramGraph
