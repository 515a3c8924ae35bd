import Mathlib.Data.List.Perm.Subperm
import ProgramGraph.Proofs.Graph.BreadthFirst
import ProgramGraph.Proofs.Store.Agreement
import ProgramGraph.Proofs.Store.Hops

set_option autoImplicit false

/-! # Loading from a root

A load answers with the graph of what lies within a number of hops of a root. The two kinds of
store search for it in different ways. The database of a table store goes on in rounds, each from
all that the round before has found, whether it was met earlier or not (`Rows.rounds`). A keyed
store reads from a queue that no identifier joins twice (`RecordReader.collect`), so it searches
breadth first along what stored nodes lead to, and no way within the depth is lost (`Front`). Both
find what `Content.Within` says, for the depth that they are given.

They are not given the same depth. The database takes it as a signed word, and a depth of `2 ^ 63`
or more comes to it negative: it then loads the root alone.
-/

namespace ProgramGraph

open ProgramGraph.Text

/-! ## What is met once -/

namespace Graph

variable {seen : Std.TreeSet String} {ids : List String} {id : String}

/-- Where nothing was seen that was not met, what is discovered and what was met is all. -/
theorem mem_append_discover {met : Array String} (hseen : ∀ id, id ∈ seen → id ∈ met) :
    id ∈ met ++ (discover seen ids).1 ↔ id ∈ met ∨ id ∈ ids := by
  rw [Array.mem_def, Array.toList_appendList, List.mem_append, mem_discover, ← Array.mem_def]
  constructor
  · exact Or.imp_right And.left
  · rintro (hmet | hid)
    · exact .inl hmet
    · by_cases hold : id ∈ seen
      · exact .inl (hseen id hold)
      · exact .inr ⟨hid, hold⟩

end Graph

/-! ## Stores that give records -/

/-- Asked for a node, or for the edges that leave a node, the store answers by the content. -/
structure Store.Gives (s : Store) (c : Content) : Prop where
  node? : ∀ id, s.node? id = .ok (c.node? id)
  edgesFrom : ∀ id, ∃ edges, s.edgesFrom id none none = .ok edges ∧
    ∀ e, e ∈ edges ↔ c.edge? e.key = some e ∧ e.source = id

theorem Store.Shows.gives {s : Store} {c : Content} (h : s.Shows c) : s.Gives c where
  node? := h.node?
  edgesFrom id := by
    obtain ⟨keys, hkeys, hedges⟩ := h.edgesFrom id none none
    refine ⟨_, hedges, fun e => ?_⟩
    rw [List.mem_filterMap]
    constructor
    · rintro ⟨key, hkey, he⟩
      obtain rfl := c.key_eq he
      have hsource := ((hkeys.mem_iff _).mp hkey).2
      simp only [Option.all_none, Bool.and_true, decide_eq_true_eq] at hsource
      exact ⟨he, hsource⟩
    · rintro ⟨he, rfl⟩
      exact ⟨e.key, (hkeys.mem_iff _).mpr ⟨Option.isSome_iff_exists.mpr ⟨e, he⟩, by simp [Edge.key]⟩, he⟩

/-! ## In rounds -/

namespace Rows

variable {rows : Rows} {c : Content} {root : String}

theorem mem_leaving {source : String} {key : EdgeKey} {row : EdgeRow} :
    (key, row) ∈ rows.leaving source ↔ rows.edges[key]? = some row ∧ key.source = source := by
  rw [leaving, List.mem_mergeSort, mem_edgeRows, decide_eq_true_eq]

/-- Asked for a node, or for the edges that leave a node, the rows answer by the content. -/
structure Give (rows : Rows) (c : Content) : Prop where
  node? : ∀ id, rows.node? id = .ok (c.node? id)
  leaving : ∀ id, ∃ edges, toEdges (rows.leaving id) = .ok edges ∧
    ∀ e, e ∈ edges ↔ c.edge? e.key = some e ∧ e.source = id

namespace Give

variable (h : rows.Give c)

include h

theorem contains_eq (id : String) : rows.nodes.contains id = c.hasNode id := by
  have hnode := h.node? id
  rw [← Std.TreeMap.isSome_getElem?_eq_contains, Content.hasNode]
  unfold Rows.node? at hnode
  cases hrow : rows.nodes[id]? with
  | none =>
      rw [hrow] at hnode
      rw [← Except.ok.inj hnode]
      rfl
  | some row =>
      rw [hrow] at hnode
      obtain ⟨n, -, hn⟩ := map_eq_ok.mp hnode
      rw [← hn]
      rfl

/-- The rows that leave a node lead where the stored edges lead. -/
theorem exists_leaving_iff {a b : String} :
    (∃ entry ∈ rows.leaving a, entry.1.target = b) ↔ c.Leads a b := by
  obtain ⟨edges, hedges, hmem⟩ := h.leaving a
  have hread := exists_of_mapM_eq_ok hedges
  obtain rfl := eq_readable_of_mapM_eq_ok hedges
  constructor
  · rintro ⟨⟨key, row⟩, hentry, rfl⟩
    obtain ⟨e, he⟩ := hread _ hentry
    obtain rfl := EdgeRow.toEdge_eq_ok he
    obtain ⟨hstored, hsource⟩ := (hmem e).mp (mem_readable.mpr ⟨_, hentry, he⟩)
    exact ⟨e, hstored, hsource, rfl⟩
  · rintro ⟨e, hstored, hsource, rfl⟩
    obtain ⟨⟨key, row⟩, hentry, he⟩ := mem_readable.mp ((hmem e).mpr ⟨hstored, hsource⟩)
    obtain rfl := EdgeRow.toEdge_eq_ok he
    exact ⟨_, hentry, rfl⟩

/-- **A round** goes one hop further. -/
theorem mem_following {n : Nat} {level : List String} (hlevel : ∀ id, id ∈ level ↔ c.Hops root n id)
    (id : String) : id ∈ rows.following level ↔ c.Hops root (n + 1) id := by
  rw [following, Graph.mem_discover, List.mem_filter, List.mem_flatMap, Content.hops_succ]
  simp only [List.mem_map, h.contains_eq, h.exists_leaving_iff, hlevel]
  rw [and_iff_left Std.TreeSet.not_mem_emptyc, and_comm]

omit h in
theorem rounds_succ (steps : Nat) (level : List String) (met : Array String) (seen : Std.TreeSet String) :
    rows.rounds (steps + 1) level met seen =
      if level.isEmpty then met
      else rows.rounds steps (rows.following level) (met ++ (Graph.discover seen level).1)
        (Graph.discover seen level).2 := rfl

/-- **All rounds** together find what lies within their number of hops, beside what was met before. -/
theorem mem_rounds {steps n : Nat} {level : List String} {met : Array String}
    {seen : Std.TreeSet String} (hlevel : ∀ id, id ∈ level ↔ c.Hops root n id)
    (hseen : ∀ id, id ∈ seen → id ∈ met) (id : String) :
    id ∈ rows.rounds steps level met seen ↔ id ∈ met ∨ ∃ m, n ≤ m ∧ m ≤ n + steps ∧ c.Hops root m id := by
  induction steps generalizing n level met seen with
  | zero =>
      rw [rounds, Graph.mem_append_discover hseen, hlevel]
      refine or_congr Iff.rfl ⟨fun hops => ⟨n, Nat.le_refl n, Nat.le_refl n, hops⟩, ?_⟩
      rintro ⟨m, hle, hge, hops⟩
      obtain rfl := Nat.le_antisymm hle hge
      exact hops
  | succ steps ih =>
      rw [rounds_succ]
      split
      · rename_i hempty
        -- Where a round finds nothing there is nothing further on.
        constructor
        · exact .inl
        · rintro (hmet | ⟨m, hle, -, hops⟩)
          · exact hmet
          · obtain ⟨a, ha⟩ := hops.earlier hle
            rw [List.isEmpty_iff.mp hempty] at hlevel
            exact absurd ((hlevel a).mpr ha) List.not_mem_nil
      · have hmet : ∀ id, id ∈ met ++ (Graph.discover seen level).1 ↔ id ∈ met ∨ id ∈ level := fun _ =>
          Graph.mem_append_discover hseen
        have hnext : ∀ id, id ∈ (Graph.discover seen level).2 →
            id ∈ met ++ (Graph.discover seen level).1 := fun id hid =>
          (hmet id).mpr ((Graph.mem_discover_seen.mp hid).imp_left (hseen id))
        rw [ih (h.mem_following hlevel) hnext, hmet, hlevel, or_assoc]
        refine or_congr Iff.rfl ⟨?_, ?_⟩
        · rintro (hops | ⟨m, hle, hge, hops⟩)
          · exact ⟨n, Nat.le_refl n, Nat.le_add_right n _, hops⟩
          · exact ⟨m, by omega, by omega, hops⟩
        · rintro ⟨m, hle, hge, hops⟩
          obtain rfl | hlt := Nat.eq_or_lt_of_le hle
          · exact .inl hops
          · exact .inr ⟨m, hlt, by omega, hops⟩

/-- From the root, rounds find what lies within their number of hops. -/
theorem mem_rounds_root (root : String) (steps : Nat) (id : String) :
    id ∈ rows.rounds steps ([root].filter rows.nodes.contains) #[] ∅ ↔ c.Within root steps id := by
  have hroot : ∀ id, id ∈ [root].filter rows.nodes.contains ↔ c.Hops root 0 id := by
    intro id
    rw [List.mem_filter, List.mem_singleton, h.contains_eq, Content.hops_zero]
    constructor <;> rintro ⟨rfl, stored⟩ <;> exact ⟨rfl, stored⟩
  have hnone : ∀ id : String, id ∈ (∅ : Std.TreeSet String) → id ∈ #[] := fun id hid =>
    absurd hid Std.TreeSet.not_mem_emptyc
  rw [h.mem_rounds hroot hnone]
  constructor
  · rintro (hid | ⟨n, -, hn, hops⟩)
    · exact absurd hid (Array.not_mem_empty id)
    · exact ⟨n, by omega, hops⟩
  · rintro ⟨n, hn, hops⟩
    exact .inr ⟨n, Nat.zero_le n, by omega, hops⟩

/-- **The database** finds the nodes within the depth and the edges that leave them. -/
theorem reached_eq (root : String) (steps : Nat) :
    ∃ nodes edges, rows.reached root steps = .ok (nodes, edges) ∧
      (∀ n, n ∈ nodes ↔ c.node? n.id = some n ∧ c.Within root steps n.id) ∧
      ∀ e, e ∈ edges ↔ c.edge? e.key = some e ∧ c.Within root steps e.source := by
  let ids := (rows.rounds steps ([root].filter rows.nodes.contains) #[] ∅).toList
  have hids : ∀ id, id ∈ ids ↔ c.Within root steps id := fun id => by
    rw [Array.mem_toList_iff, h.mem_rounds_root]
  -- every row decodes, so that reading is a pure function of the identifier
  choose edgesOf hedges hmem using h.leaving
  refine ⟨ids.filterMap c.node?, ids.flatMap edgesOf, ?_, fun n => ?_, fun e => ?_⟩
  · have hread : (fun id => do pure (← rows.node? id, ← toEdges (rows.leaving id)) :
        String → Outcome (Option Node × List Edge)) = fun id => pure (c.node? id, edgesOf id) := by
      funext id
      rw [h.node?, hedges]
      rfl
    show (ids.mapM _ >>= _) = _
    rw [hread, List.mapM_pure]
    show Except.ok (_, _) = _
    rw [List.filterMap_map, List.flatMap_map]
    rfl
  · rw [Content.mem_filterMap_node?, hids]
  · rw [List.mem_flatMap]
    constructor
    · rintro ⟨id, hid, he⟩
      obtain ⟨hstored, rfl⟩ := (hmem id e).mp he
      exact ⟨hstored, (hids _).mp hid⟩
    · rintro ⟨hstored, hwithin⟩
      exact ⟨e.source, (hids _).mpr hwithin, (hmem _ e).mpr ⟨hstored, rfl⟩⟩

end Give

end Rows

/-- What stands in the way of one statement that reads stands in the way of all. -/
theorem Statement.read_eq_ok {a b : Statement} {state : DatabaseState} (h : a.read state = .ok ()) :
    b.read state = .ok () := by
  unfold Statement.read at h ⊢
  split at h <;> simp_all

namespace Table

variable {t : Table} {c : Content}

theorem give_of_gives (h : (Store.table t).Gives c) : t.rows.Give c where
  node? id := by
    obtain ⟨_, -, hnode⟩ := bind_eq_ok.mp (h.node? id)
    exact hnode
  leaving id := by
    obtain ⟨edges, hedges, hmem⟩ := h.edgesFrom id
    obtain ⟨_, -, hedges⟩ := bind_eq_ok.mp hedges
    have hread := exists_of_mapM_eq_ok hedges
    have hentry : ∀ entry, entry ∈ t.rows.leaving id ↔
        entry ∈ t.rows.edgeRows fun key => key.source = id && (none : Option String).all (fun b => key.target = b) &&
          (none : Option EdgeKind).all fun k => key.kind = k := by
      rintro ⟨key, row⟩
      rw [Rows.mem_leaving, Rows.mem_edgeRows]
      simp
    refine ⟨_, mapM_eq_readable fun entry he => hread entry ((hentry entry).mp he), fun e => ?_⟩
    obtain rfl := eq_readable_of_mapM_eq_ok hedges
    rw [← hmem, mem_readable, mem_readable]
    simp only [hentry]

/-- **A table store** loads within the depth that its database takes. -/
theorem loads (h : (Store.table t).Gives c) (root : String) (maxDepth : UInt64) :
    c.Loads root maxDepth.toInt64.toInt.toNat (t.loadGraph root maxDepth) := by
  obtain ⟨_, hread, -⟩ := bind_eq_ok.mp (h.node? root)
  have hload : Statement.load.read t.state = .ok () := Statement.read_eq_ok hread
  obtain ⟨nodes, edges, hreached, hnodes, hedges⟩ :=
    (give_of_gives h).reached_eq root maxDepth.toInt64.toInt.toNat
  have hrun : t.loadGraph root maxDepth = Graph.ofFound root nodes edges := by
    rw [loadGraph, hload, hreached]
    rfl
  rw [hrun]
  exact Content.loads_ofFound hnodes hedges

end Table

/-! ## From a queue -/

namespace RecordReader

variable {r : RecordReader} {c : Content} {root : String} {maxDepth : Nat}

/-- The reader answers by the content, and its bound holds for what edges lead to. -/
structure Gives (r : RecordReader) (c : Content) : Prop where
  node? : ∀ id, r.node? id = .ok (c.node? id)
  edgesFrom : ∀ id, ∃ edges, r.edgesFrom id = .ok edges ∧
    ∀ e, e ∈ edges ↔ c.edge? e.key = some e ∧ e.source = id
  length_le : ∀ {ids : List String}, ids.Nodup → (∀ id ∈ ids, ∃ a, c.Leads a id) → ids.length ≤ r.edgeBound

section Front

variable {taken queue : List (String × Nat)} {seen : Std.TreeSet String} {id : String} {d : Nat}

/-- What is not stored is passed over. -/
theorem advance_missing (h : Front c.Passes root (some maxDepth) taken ((id, d) :: queue) seen)
    (hid : ¬c.hasNode id = true) : Front c.Passes root (some maxDepth) (taken ++ [(id, d)]) queue seen :=
  h.advance_idle fun _ _ hpasses => hid hpasses.1

/-- What a stored node leads to joins the queue. -/
theorem advance_stored (h : Front c.Passes root (some maxDepth) taken ((id, d) :: queue) seen)
    (hid : c.hasNode id = true) {targets : List String} (htargets : ∀ b, b ∈ targets ↔ c.Leads id b) :
    Front c.Passes root (some maxDepth) (taken ++ [(id, d)])
      (queue ++ (joining maxDepth d seen targets).1.map (·, d + 1)) (joining maxDepth d seen targets).2 := by
  unfold joining
  split
  · rename_i hlt
    exact h.advance_discover (permits_some.mpr hlt) fun b => (htargets b).trans (and_iff_right hid).symm
  · rename_i hge
    rw [List.map_nil, List.append_nil]
    exact h.advance_idle fun hpermits => absurd (permits_some.mp hpermits) hge

/-- No more is met than edges lead to, and the root. -/
theorem length_le (h : Front c.Passes root (some maxDepth) taken queue seen) (hr : r.Gives c) :
    (taken ++ queue).length ≤ r.edgeBound + 1 := by
  let ids := (taken ++ queue).map Prod.fst
  have hroot : root ∈ ids := List.mem_map.mpr ⟨_, h.begins, rfl⟩
  have hothers : (ids.erase root).length ≤ r.edgeBound := by
    refine hr.length_le (h.nodup.erase root) fun id hid => ?_
    obtain ⟨hne, hmem⟩ := (List.Nodup.mem_erase_iff h.nodup).mp hid
    obtain ⟨⟨id, d⟩, hmet, rfl⟩ := List.mem_map.mp hmem
    obtain ⟨a, hpasses⟩ := (h.walk hmet).eq_or_leads.resolve_left hne
    exact ⟨a, hpasses.2⟩
  have hlength : (taken ++ queue).length = ids.length := (List.length_map _).symm
  have herase := List.length_erase_of_mem hroot
  have hpos := List.length_pos_of_mem hroot
  omega

/-- **Where nothing waits** the stored nodes among what was taken are those within the depth. -/
theorem mem_taken_iff (h : Front c.Passes root (some maxDepth) taken [] seen) {id : String} :
    c.hasNode id = true ∧ id ∈ taken.map Prod.fst ↔ c.Within root maxDepth id := by
  rw [h.mem_taken_iff, Content.within_iff]
  simp only [permits_some]

end Front

variable {steps d : Nat} {id : String} {queue : List (String × Nat)} {seen : Std.TreeSet String}

theorem collect_cons_none (hid : r.node? id = .ok none) :
    r.collect maxDepth (steps + 1) ((id, d) :: queue) seen = r.collect maxDepth steps queue seen := by
  rw [collect, hid]
  rfl

theorem collect_cons_some {n : Node} {leaving : List Edge} (hid : r.node? id = .ok (some n))
    (hleaving : r.edgesFrom id = .ok leaving) :
    r.collect maxDepth (steps + 1) ((id, d) :: queue) seen =
      r.collect maxDepth steps
          (queue ++ (joining maxDepth d seen (leaving.map Edge.target)).1.map (·, d + 1))
          (joining maxDepth d seen (leaving.map Edge.target)).2 >>= fun found =>
        pure (n :: found.1, leaving ++ found.2) := by
  rw [collect, hid]
  show (r.edgesFrom id >>= _) = _
  rw [hleaving]
  rfl

/-- **The reading** goes on until nothing waits, and finds the stored nodes among what it takes with
the edges that leave them. -/
theorem collect_eq (hr : r.Gives c) {taken : List (String × Nat)} (h : Front c.Passes root (some maxDepth) taken queue seen)
    (hsteps : r.edgeBound + 1 ≤ taken.length + steps) :
    ∃ more after edges, r.collect maxDepth steps queue seen = .ok ((more.map Prod.fst).filterMap c.node?, edges) ∧
      (∀ e, e ∈ edges ↔ c.edge? e.key = some e ∧ c.hasNode e.source = true ∧ e.source ∈ more.map Prod.fst) ∧
      Front c.Passes root (some maxDepth) (taken ++ more) [] after := by
  -- Each step takes one identifier off the queue, and no more are met than edges lead to, and the root.
  induction steps generalizing taken queue seen with
  | zero =>
      -- All that can be met has been taken.
      have hlength := length_le h hr
      obtain rfl : queue = [] := List.eq_nil_of_length_eq_zero (by rw [List.length_append] at hlength; omega)
      exact ⟨[], seen, [], rfl, by simp, by simpa using h⟩
  | succ steps ih =>
      match queue with
      | [] => exact ⟨[], seen, [], rfl, by simp, by simpa using h⟩
      | (id, d) :: queue =>
          have hfuel : r.edgeBound + 1 ≤ (taken ++ [(id, d)]).length + steps := by
            rw [List.length_append, List.length_singleton]
            omega
          cases hnode : c.node? id with
          | none =>
              have hmissing : ¬c.hasNode id = true := by simp [Content.hasNode, hnode]
              obtain ⟨more, after, edges, hrun, hedges, hend⟩ := ih (advance_missing h hmissing) hfuel
              refine ⟨(id, d) :: more, after, edges, ?_, fun e => ?_, by rwa [List.append_cons]⟩
              · rw [collect_cons_none (hnode ▸ hr.node? id), hrun, List.map_cons, List.filterMap_cons_none hnode]
              · rw [hedges, List.map_cons, List.mem_cons]
                refine and_congr_right fun _ => and_congr_right fun hstored => (or_iff_right ?_).symm
                rintro rfl
                exact hmissing hstored
          | some n =>
              have hstored : c.hasNode id = true := by simp [Content.hasNode, hnode]
              obtain ⟨leaving, hleaving, hmem⟩ := hr.edgesFrom id
              have htargets : ∀ b, b ∈ leaving.map Edge.target ↔ c.Leads id b := fun b => by
                simp only [List.mem_map, hmem, Content.Leads, and_assoc]
              obtain ⟨more, after, edges, hrun, hedges, hend⟩ := ih (advance_stored h hstored htargets) hfuel
              refine ⟨(id, d) :: more, after, leaving ++ edges, ?_, fun e => ?_, by rwa [List.append_cons]⟩
              · rw [collect_cons_some (hnode ▸ hr.node? id) hleaving, hrun, List.map_cons,
                  List.filterMap_cons_some hnode]
                rfl
              · rw [List.mem_append, hmem, hedges, ← and_or_left, List.map_cons, List.mem_cons]
                refine and_congr_right fun _ => ?_
                constructor
                · rintro (rfl | ⟨hsource, hmore⟩)
                  · exact ⟨hstored, .inl rfl⟩
                  · exact ⟨hsource, .inr hmore⟩
                · rintro ⟨hsource, heq | hmore⟩
                  · exact .inl heq
                  · exact .inr ⟨hsource, hmore⟩

/-- **Reading from a queue** loads what lies within the depth. -/
theorem loads (hr : r.Gives c) (root : String) (maxDepth : Nat) :
    c.Loads root maxDepth (r.load root maxDepth) := by
  obtain ⟨taken, seen, edges, hrun, hedges, hend⟩ :=
    collect_eq hr (Front.initial c.Passes root (some maxDepth)) (Nat.le_add_left _ _)
  rw [List.nil_append] at hend
  have hload : r.load root maxDepth =
      Graph.ofFound root ((taken.map Prod.fst).filterMap c.node?) edges := by
    rw [load, hrun]
    rfl
  rw [hload]
  refine Content.loads_ofFound (fun n => ?_) fun e => ?_
  · rw [Content.mem_filterMap_node?, ← mem_taken_iff hend]
    refine and_congr_right fun hn => (and_iff_right ?_).symm
    exact Option.isSome_iff_exists.mpr ⟨n, hn⟩
  · rw [hedges, mem_taken_iff hend]

end RecordReader

namespace Keyed

variable {k : Keyed} {c : Content}

/-- An edge that is read stands in an entry. -/
theorem exists_entry_of_edgesFrom {source : String} {edges : List Edge} {e : Edge}
    (hedges : k.edgesFrom source none none = .ok edges) (he : e ∈ edges) :
    ∃ entry ∈ k.entries.toList, ∃ payload,
      Envelope.unpack? k.now entry.2 = some payload ∧ decodeEdge payload = .ok e := by
  obtain ⟨found, hfound, hfilter⟩ := bind_eq_ok.mp hedges
  have hmem : e ∈ found := by
    obtain rfl := Except.ok.inj hfilter
    exact (List.mem_filter.mp he).1
  obtain rfl := eq_readable_of_mapM_eq_ok hfound
  obtain ⟨⟨key, payload⟩, hlive, hdecode⟩ := mem_readable.mp hmem
  obtain ⟨⟨key', entry⟩, hentry, hunpack⟩ := List.mem_filterMap.mp hlive
  obtain ⟨payload', hpayload, heq⟩ := Option.map_eq_some_iff.mp hunpack
  obtain ⟨-, rfl⟩ := Prod.mk.inj heq
  rw [ByteMap.scan_eq_filter] at hentry
  exact ⟨_, (List.mem_filter.mp hentry).1, payload', hpayload, hdecode⟩

/-- There are no more targets of edges than entries. -/
theorem length_targets_le {ids : List String} (hnodup : ids.Nodup)
    (hids : ∀ id ∈ ids, ∃ a edges e, k.edgesFrom a none none = .ok edges ∧ e ∈ edges ∧ e.target = id) :
    ids.length ≤ k.entries.size := by
  let targetOf (entry : Bytes × Bytes) : Option String :=
    (Envelope.unpack? k.now entry.2).bind fun payload => (decodeEdge payload).toOption.map Edge.target
  have hsub : ids ⊆ k.entries.toList.filterMap targetOf := by
    intro id hid
    obtain ⟨a, edges, e, hedges, he, rfl⟩ := hids id hid
    obtain ⟨entry, hentry, payload, hunpack, hdecode⟩ := exists_entry_of_edgesFrom hedges he
    refine List.mem_filterMap.mpr ⟨entry, hentry, ?_⟩
    simp only [targetOf, hunpack, Option.bind_some, hdecode, Except.toOption, Option.map_some]
  calc ids.length ≤ (k.entries.toList.filterMap targetOf).length :=
        (List.subperm_of_subset hnodup hsub).length_le
    _ ≤ k.entries.toList.length := List.length_filterMap_le _ _
    _ = k.entries.size := Std.TreeMap.length_toList

/-- The reader of a keyed store. -/
theorem reader_gives (h : (Store.keyed k).Gives c) : k.reader.Gives c where
  node? := h.node?
  edgesFrom := h.edgesFrom
  length_le {ids} hnodup hids := by
    apply length_targets_le hnodup
    intro id hid
    obtain ⟨a, e, hstored, hsource, htarget⟩ := hids id hid
    obtain ⟨edges, hedges, hmem⟩ := h.edgesFrom a
    exact ⟨a, edges, e, hedges, (hmem e).mpr ⟨hstored, hsource⟩, htarget⟩

/-- **A keyed store** loads within the depth. -/
theorem loads (h : (Store.keyed k).Gives c) (root : String) (maxDepth : UInt64) :
    c.Loads root maxDepth.toNat (k.loadGraph root maxDepth) :=
  RecordReader.loads (reader_gives h) root maxDepth.toNat

end Keyed

/-! ## The two kinds of store -/

/-- A depth as a signed word, where a negative one counts as none. -/
theorem toNat_toInt_toInt64 (depth : UInt64) :
    depth.toInt64.toInt.toNat = if depth.toNat < 2 ^ 63 then depth.toNat else 0 := by
  have hlt : depth.toNat < 2 ^ 64 := depth.toNat_lt
  have hint : depth.toInt64.toInt =
      if 2 * depth.toNat < 2 ^ 64 then (depth.toNat : Int) else (depth.toNat : Int) - (2 ^ 64 : Nat) :=
    BitVec.toInt_eq_toNat_cond _
  rw [hint]
  split <;> split <;> omega

namespace Store

/-- **Loads from stores that hold the same.** Each gives the graph of what lies within its depth, or
reports a missing root. For a table store a depth of `2 ^ 63` or more is none at all. So the loads come to
the same for every smaller depth, cycles and dangling edges or not, and for such a depth if and only if the
root leads to no other stored node. -/
theorem loadGraph_same_iff {t : Table} {k : Keyed} {c : Content} (ht : (Store.table t).Gives c)
    (hk : (Store.keyed k).Gives c) (root : String) (maxDepth : UInt64) :
    c.Loads root (if maxDepth.toNat < 2 ^ 63 then maxDepth.toNat else 0)
        ((Store.table t).loadGraph root maxDepth) ∧
      c.Loads root maxDepth.toNat ((Store.keyed k).loadGraph root maxDepth) ∧
      (SameLoad ((Store.table t).loadGraph root maxDepth) ((Store.keyed k).loadGraph root maxDepth) ↔
        maxDepth.toNat < 2 ^ 63 ∨ ∀ id, c.Hops root 1 id → id = root) := by
  have htable := Table.loads ht root maxDepth
  have hkeyed := Keyed.loads hk root maxDepth
  rw [toNat_toInt_toInt64] at htable
  refine ⟨htable, hkeyed, (htable.same_iff hkeyed).trans ?_⟩
  by_cases hlt : maxDepth.toNat < 2 ^ 63
  · rw [if_pos hlt]
    exact iff_of_true (fun _ => Iff.rfl) (.inl hlt)
  · rw [if_neg hlt, or_iff_right hlt]
    exact Content.within_zero_iff (by omega)

/-- Two nodes that lead to each other; one leads to itself too and the other to nothing stored. -/
theorem loadGraph_same_iff_cycle :
    let a := Node.ofCore "a" (.module "a" "a")
    let b := Node.ofCore "b" (.module "b" "b")
    let edge (source target : String) := Edge.ofCore source target (.contains none)
    let settings := { KeyedSettings.standard with defaultLife := none }
    let calls := [Operation.saveNode a, .saveNode b, .saveEdge (edge "a" "b"), .saveEdge (edge "b" "a"),
      .saveEdge (edge "a" "a"), .saveEdge (edge "b" "gone")].map Call.one
    ∃ t k c, Action.Ends (calls.forM Call.work) (.table (.ofRows .inMemory .empty)) () (.table t) ∧
      Action.Ends (calls.forM Call.work) (.keyed (.ofEntries settings ∅ 0)) () (.keyed k) ∧
      (Store.table t).Gives c ∧ (Store.keyed k).Gives c ∧
      c.Loads "a" (if (1 : UInt64).toNat < 2 ^ 63 then (1 : UInt64).toNat else 0)
          ((Store.table t).loadGraph "a" 1) ∧
        c.Loads "a" (1 : UInt64).toNat ((Store.keyed k).loadGraph "a" 1) ∧
        (SameLoad ((Store.table t).loadGraph "a" 1) ((Store.keyed k).loadGraph "a" 1) ↔
          (1 : UInt64).toNat < 2 ^ 63 ∨ ∀ id, c.Hops "a" 1 id → id = "a") := by
  intro a b edge settings calls
  have hused : Unambiguous fun id => id = "a" ∨ id = "b" ∨ id = "gone" := by
    rintro _ _ _ _ (rfl | rfl | rfl) (rfl | rfl | rfl) (rfl | rfl | rfl) (rfl | rfl | rfl) h <;> revert h <;>
      decide +kernel
  let conv : Convention := ⟨fun _ => .module, _, hused⟩
  have hnone : Properties.KeepsFloats ∅ := fun key x h => by simp at h
  have hnode : ∀ (backend : Backend) (id : String), (Node.ofCore id (.module id id)).Fits →
      backend.Suits conv (.saveNode (.ofCore id (.module id id))) := fun backend id hfits =>
    backend.suits_saveNode (fun _ _ => rfl) hnone (.inr hfits) rfl
  have hedge : ∀ (backend : Backend) (source target : String), (edge source target).Fits →
      conv.used source → conv.used target → backend.Suits conv (.saveEdge (edge source target)) :=
    fun backend source target hfits hsource htarget =>
      backend.suits_saveEdge (fun _ _ => rfl) hnone (.inr hfits) hsource htarget
  have hsuits : ∀ backend : Backend, ∀ call ∈ calls, ∀ op ∈ call.operations, backend.Suits conv op := by
    intro backend call hcall op hop
    have hop : op ∈ calls.flatMap Call.operations := List.mem_flatMap.mpr ⟨call, hcall, hop⟩
    simp only [calls, List.map_cons, List.map_nil, List.flatMap_cons, List.flatMap_nil, Call.operations,
      List.cons_append, List.nil_append, List.mem_cons, List.not_mem_nil, or_false] at hop
    rcases hop with rfl | rfl | rfl | rfl | rfl | rfl
    · exact hnode _ _ (by decide +kernel)
    · exact hnode _ _ (by decide +kernel)
    all_goals exact hedge _ _ _ (by decide +kernel) (by simp [conv]) (by simp [conv])
  have stays : settings.defaultLife = none := rfl
  obtain ⟨x, hx, hxc⟩ := (Carries.of_noRows conv .inMemory).calls (hsuits _)
  obtain ⟨y, hy, hyc⟩ := (Carries.of_noEntries conv stays 0).calls (hsuits _)
  -- No edge is saved twice.
  have hcontent : (∅ : Content).afterEach Backend.rows.policy (calls.flatMap Call.operations) =
      (∅ : Content).afterEach (Backend.entries settings.cascadeIncoming).policy (calls.flatMap Call.operations) := by
    simp only [calls, List.map_cons, List.map_nil, List.flatMap_cons, List.flatMap_nil, Call.operations,
      List.cons_append, List.nil_append, Content.afterEach, List.foldl_cons, List.foldl_nil, Content.step,
      Backend.policy, Table.policy]
    rw [Content.putEdge_of_not_hasEdge, Content.putEdge_of_not_hasEdge, Content.putEdge_of_not_hasEdge,
      Content.putEdge_of_not_hasEdge]
    all_goals decide +kernel
  rw [hcontent] at hxc
  have hxg := hxc.shows.gives
  have hyg := hyc.shows.gives
  obtain ⟨t, rfl⟩ := hxc.exists_table
  obtain ⟨k, rfl⟩ := hyc.exists_keyed
  exact ⟨t, k, _, hx, hy, hxg, hyg, loadGraph_same_iff hxg hyg "a" 1⟩

/-- **The greatest depth** loads the root alone from a table store, and what it leads to from a keyed one. -/
theorem loadGraph_greatestDepth :
    let a := Node.ofCore "a" (.module "a" "a")
    let b := Node.ofCore "b" (.module "b" "b")
    let e := Edge.ofCore "a" "b" (.contains none)
    let t := Table.ofRows .inMemory (((Rows.empty.putNode a).putNode b).putEdge e)
    let k := ((Keyed.ofEntries { KeyedSettings.standard with defaultLife := none } ∅ 0).saveNode a
      |>.saveNode b).saveEdge e
    let shown (s : Store) := (s.loadGraph "a" 18446744073709551615).toOption.map fun g =>
      (g.nodeList.map Node.id, g.edgeList.map Edge.key)
    shown (.table t) = some (["a"], []) ∧
      shown (.keyed k) = some (["a", "b"], [⟨"a", "b", .contains⟩]) := by
  intro a b e t k shown
  constructor
  · simp only [shown, t, loadGraph, Table.loadGraph, Rows.reached, Rows.leaving, Rows.edgeRows, Rows.foldr_edges]
    decide +kernel
  · simp only [shown, k, loadGraph, Keyed.loadGraph, Keyed.reader, RecordReader.load, Keyed.edgesFrom,
      Keyed.edgesUnder, Keyed.liveUnder, ByteMap.scan_eq_filter]
    decide +kernel

end Store

end ProgramGraph
