import ProgramGraph.Proofs.Delta.Written
import ProgramGraph.Proofs.Outline.Depiction
import ProgramGraph.Proofs.Sync.Counting

set_option autoImplicit false

/-! # A change touches its own file only

Nothing is asked of the table here: its rows need not have come from files, edges may lead from and to nodes
that are not there, and rows may not decode. What a call does to it is bounded all the same
(`Updater.process_touches`).

The bound comes from two sides. What the table is found to hold of the file are edges that leave the file or a
node that it owns, and nodes that are there; which of them are deleted is asked once more (`Store.Gathered`). And
the graph that the file is to have has edges only that leave the file or what is defined in it
(`FileOutline.isOwnedBy_of_hasEdge`).
-/

namespace ProgramGraph

/-- Whether a node is owned is a question about its identifier and its content. -/
theorem Node.IsPlain.isOwnedBy_eq {n m : Node} (h : n.IsPlain) (hid : m.id = n.id) (hsame : m.sameContent n = true)
    (path : String) : m.isOwnedBy path = n.isOwnedBy path := by
  simp only [isOwnedBy, (h.of_sameContent hsame).1, h.qualifiedName_eq hsame, hid]

/-! ## The graph that the file is to have -/

namespace FileOutline

variable {f : FileOutline}

/-- A relation goes out from the file or from what is defined in it. -/
theorem Relates.source {key : EdgeKey} (h : f.Relates key) :
    ∃ e, f.Declares e ∧ e.IsOf f.path ∧ e.id = key.source := by
  cases h with
  | function | classDef | module => exact ⟨_, .file, EntityName.isOf_ofFile f.path, rfl⟩
  | call hfn => exact ⟨_, .function hfn, rfl, rfl⟩
  | base hc => exact ⟨_, .classDef hc, rfl, rfl⟩

/-- **Edges leave nodes of the file.** What is mentioned by the identifier of something defined does not take its
place. -/
theorem isOwnedBy_of_hasEdge {key : EdgeKey} (hkey : f.graph.hasEdge key = true) {n : Node}
    (hn : f.graph.node? key.source = some n) : n.isOwnedBy f.path = true := by
  obtain ⟨e, he, hof, hid⟩ := ((hasEdge_graph_iff key).mp hkey).source
  have hkind : n.kind = e.kind := kind_eq_of_graph (hid ▸ hn)
  rw [node?_graph_of_skeleton ((hasNode_skeleton_iff _).mpr ⟨e, he, hid⟩)] at hn
  rcases of_node?_skeleton hn with rfl | ⟨fn, rfl⟩ | ⟨c, rfl⟩ | ⟨name, i, rfl⟩
  · exact f.fileNode_bears.isOwnedBy (EntityName.isOf_ofFile f.path)
  · exact (functionNode_bears f.path fn).isOwnedBy rfl
  · exact (classNode_bears f.path c).isOwnedBy rfl
  · -- Of what is declared only a module has the kind, and it belongs to no file.
    rw [(moduleNode_bears name i).kind] at hkind
    cases he with
    | module => cases (hof : (none : Option String) = some f.path)
    | _ => cases hkind

end FileOutline

theorem SyncCall.isOwnedBy_of_hasEdge {readers : List OutlineReader} {call : SyncCall} {fresh : Graph}
    (h : call.target readers = .ok fresh) {key : EdgeKey} (hkey : fresh.hasEdge key = true) {n : Node}
    (hn : fresh.node? key.source = some n) : n.isOwnedBy call.path = true := by
  rcases SyncCall.target_cases h with ⟨-, rfl⟩ | ⟨f, -, hpath, rfl⟩
  · cases hkey
  · exact hpath ▸ FileOutline.isOwnedBy_of_hasEdge hkey hn

/-! ## What a call may do to rows -/

namespace Rows

variable {rows rows' : Rows}

/-- There is a node with the identifier, and the file at the path owns it. -/
def OwnsAt (rows : Rows) (path id : String) : Prop :=
  ∃ n, rows.node? id = .ok (some n) ∧ n.isOwnedBy path = true

/-- The identifier is that of the file at the path, or of a node that the file owns. -/
def HasOwn (rows : Rows) (path id : String) : Prop := id = nodeId .file path none ∨ rows.OwnsAt path id

/-- The second rows differ from the first only in what belongs to the file at a path, which is to have the graph
`fresh`. -/
structure TouchedFor (rows : Rows) (path : String) (fresh : Graph) (rows' : Rows) : Prop where
  /-- A node stays as it is, or is an owned one that goes, or is as the graph has it. -/
  node : ∀ id, rows'.nodes[id]? = rows.nodes[id]? ∨
    (rows.OwnsAt path id ∧ rows'.nodes[id]? = none) ∨
    ∃ n, fresh.node? id = some n ∧ rows'.nodes[id]? = some (.ofNode n)
  /-- An edge stays as it is, or goes that leaves the file or an owned node or touches an owned node that goes, or
  comes that the graph has and that leaves a node that is owned now. -/
  edge : ∀ key, rows'.edges[key]? = rows.edges[key]? ∨
    (rows'.edges[key]? = none ∧
      (rows.HasOwn path key.source ∨ ∃ id, key.Touches id ∧ rows.OwnsAt path id ∧ rows'.nodes[id]? = none)) ∨
    (rows.edges[key]? = none ∧ rows'.OwnsAt path key.source ∧ ∃ e, fresh.edge? key = some e ∧
      rows'.edges[key]?.map EdgeRow.properties = some (Json.print e.properties.toWire))

/-- What stands under an identifier is all that is read there. -/
theorem node?_congr {id : String} (h : rows'.nodes[id]? = rows.nodes[id]?) : rows'.node? id = rows.node? id := by
  rw [node?, node?, h]

end Rows

/-! ## What is found of the file -/

namespace Store

/-- What the search for what a table holds of a file has found, and what is still to do. -/
structure Gathered (t : Table) (path : String) (found : Graph) (todo : List String) : Prop where
  sound : found.IsSound
  nodes : ∀ {id n}, found.node? id = some n → t.rows.node? id = .ok (some n)
  source : ∀ {key}, found.hasEdge key = true → t.rows.HasOwn path key.source
  todo : ∀ {id}, id ∈ todo → t.rows.HasOwn path id

variable {t : Table} {path : String} {found found' : Graph} {todo todo' : List String}

theorem rows_node?_of_node? {id : String} {n? : Option Node} (h : (Store.table t).node? id = .ok n?) :
    t.rows.node? id = .ok n? := by
  obtain ⟨_, -, h⟩ := bind_eq_ok.mp (show t.node? id = .ok n? from h)
  exact h

/-- An edge that leaves a node of the file is found. -/
theorem Gathered.addEdge (h : Gathered t path found todo) {e : Edge} (hsource : t.rows.HasOwn path e.source)
    (hadd : found.addEdge e = .ok found') : Gathered t path found' todo := by
  have hjoins := Graph.joins_addEdge hadd
  obtain ⟨hfrom, hto⟩ := Graph.ends_of_addEdge hadd
  constructor
  case sound => exact h.sound.joins hjoins hfrom hto
  case nodes => exact fun hn => h.nodes ((hjoins.node? _).symm.trans hn)
  case source =>
    intro key hkey
    rcases hjoins.hasEdge_iff.mp hkey with rfl | hkey
    · exact hsource
    · exact h.source hkey
  case todo => exact h.todo

/-- A node is found, and is still to do if the file owns it. -/
theorem Gathered.addNode (h : Gathered t path found todo) {n : Node} (hn : t.rows.node? n.id = .ok (some n)) :
    Gathered t path (found.addNode n) (if n.isOwnedBy path then n.id :: todo else todo) := by
  constructor
  case sound => exact h.sound.addNode n
  case nodes =>
    intro id m hm
    rcases Graph.node?_addNode_cases hm with ⟨rfl, rfl⟩ | hm
    · exact hn
    · exact h.nodes hm
  case source => exact h.source
  case todo =>
    intro id hid
    split at hid
    · rename_i howned
      rcases List.mem_cons.mp hid with rfl | hid
      · exact .inr ⟨n, hn, howned⟩
      · exact h.todo hid
    · exact h.todo hid

/-- **The edges of a node** are looked at one by one. -/
theorem Gathered.addEdgesOf {edges : List Edge} (h : Gathered t path found todo)
    (hsource : ∀ e ∈ edges, t.rows.HasOwn path e.source)
    (hrun : (Store.table t).addEdgesOf path (found, todo) edges = .ok (found', todo')) :
    Gathered t path found' todo' := by
  induction edges generalizing found todo with
  | nil =>
      obtain ⟨rfl, rfl⟩ := Prod.mk.inj (Except.ok.inj hrun)
      exact h
  | cons e rest ih =>
      have hfirst := hsource e List.mem_cons_self
      have hrest : ∀ d ∈ rest, t.rows.HasOwn path d.source := fun d hd => hsource d (List.mem_cons_of_mem _ hd)
      rw [Store.addEdgesOf] at hrun
      split at hrun
      · obtain ⟨joined, hadd, hrun⟩ := bind_eq_ok.mp hrun
        exact ih (h.addEdge hfirst hadd) hrest hrun
      · obtain ⟨target?, hlookup, hrun⟩ := bind_eq_ok.mp hrun
        have hstored := rows_node?_of_node? hlookup
        cases target? with
        | none => exact ih h hrest hrun
        | some n =>
            obtain ⟨joined, hadd, hrun⟩ := bind_eq_ok.mp hrun
            have hid : n.id = e.target := Rows.id_eq_of_node? hstored
            exact ih ((h.addNode (hid ▸ hstored)).addEdge hfirst hadd) hrest hrun

/-- **Whatever the search finds** is of the file, or a node that an edge of the file leads to. -/
theorem Gathered.growFragment {steps : Nat} (h : Gathered t path found todo)
    (hrun : (Store.table t).growFragment path steps (found, todo) = .ok found') : Gathered t path found' [] := by
  induction steps generalizing found todo with
  | zero =>
      obtain rfl := Except.ok.inj hrun
      exact ⟨h.sound, h.nodes, h.source, fun hid => absurd hid List.not_mem_nil⟩
  | succ steps ih =>
      cases todo with
      | nil =>
          obtain rfl := Except.ok.inj hrun
          exact h
      | cons id todo =>
          obtain ⟨edges, hedges, hrun⟩ := bind_eq_ok.mp hrun
          obtain ⟨⟨next, todo'⟩, hadd, hrun⟩ := bind_eq_ok.mp hrun
          obtain ⟨_, -, hedges⟩ := bind_eq_ok.mp (show t.edgesFrom id none none = .ok edges from hedges)
          have hleft : Gathered t path found todo :=
            ⟨h.sound, h.nodes, h.source, fun hid => h.todo (List.mem_cons_of_mem _ hid)⟩
          refine ih (hleft.addEdgesOf (fun e he => ?_) hadd) hrun
          exact Rows.source_eq_of_edgesFrom hedges he ▸ h.todo List.mem_cons_self

theorem gathered_fragment (h : (Store.table t).fragment path = .ok found) : Gathered t path found [] := by
  obtain ⟨n?, hlookup, h⟩ := bind_eq_ok.mp h
  have hstored := rows_node?_of_node? hlookup
  have hnothing : Gathered t path ∅ [] :=
    ⟨Graph.isSound_empty, fun h => (nomatch h), fun h => (nomatch h), fun h => absurd h List.not_mem_nil⟩
  cases n? with
  | none =>
      obtain rfl := Except.ok.inj h
      exact hnothing
  | some n =>
      have hid : n.id = nodeId .file path none := Rows.id_eq_of_node? hstored
      have hfound := hnothing.addNode (n := n) (hid ▸ hstored)
      have hstart : Gathered t path ((∅ : Graph).addNode n) [nodeId .file path none] :=
        ⟨hfound.sound, hfound.nodes, hfound.source, fun hid => .inl (List.mem_singleton.mp hid)⟩
      exact hstart.growFragment h

end Store

/-! ## What is written -/

/-- What a call that ends well has read and made. -/
theorem of_ends_syncFile {readers : List OutlineReader} {call : SyncCall} {s s' : Store} {delta : Delta}
    (h : Action.Ends (syncFile readers call.directory call.change) s delta s') :
    ∃ old fresh, s.fragment call.path = .ok old ∧ call.target readers = .ok fresh ∧
      delta = (Delta.between old fresh).sparing old call.path ∧
      if delta.isEmpty then s' = s else Action.Ends (Action.transaction delta.store) s () s' := by
  have hrun : Action.runOn (m := Id) (syncFile readers call.directory call.change) s = (.ok delta, s') := h
  rw [runOn_syncCall] at hrun
  split at hrun
  · cases hrun
  · rename_i old hfragment
    split at hrun
    · cases hrun
    · rename_i fresh htarget
      refine ⟨old, fresh, hfragment, htarget, ?_⟩
      split at hrun
      · rename_i hempty
        cases hrun
        exact ⟨rfl, by rw [if_pos hempty]⟩
      · rename_i hempty
        split at hrun
        · cases hrun
        · rename_i hmade
          cases hrun
          exact ⟨rfl, by rw [if_neg hempty]; exact hmade⟩

namespace Table

variable {t : Table} {s' : Store}

/-- **A transaction over operations** that ends well makes them on the rows, inside another transaction or not. -/
theorem eq_of_ends_transaction {ops : List Store.Operation}
    (h : Action.Ends (Action.transaction (ops.forM Action.perform)) (.table t) () s') :
    s' = .table (t.change fun rows => ops.foldl rowsAfter rows) := by
  obtain ⟨s₁, hbody, rfl⟩ := Action.of_ends_transaction h
  obtain rfl := eq_of_performAll (t := t.enterScope) (Action.ends_forM_perform_iff.mp hbody)
  obtain ⟨settings, rows, saved, state⟩ := t
  cases saved <;> rfl

/-- **A call that ends well** makes the operations of its change set. -/
theorem eq_of_ends_syncFile {readers : List OutlineReader} {call : SyncCall} {delta : Delta}
    (h : Action.Ends (syncFile readers call.directory call.change) (.table t) delta s') :
    ∃ old fresh, (Store.table t).fragment call.path = .ok old ∧ call.target readers = .ok fresh ∧
      delta = (Delta.between old fresh).sparing old call.path ∧
      s' = .table (t.change fun rows => delta.operations.foldl rowsAfter rows) := by
  obtain ⟨old, fresh, hold, hfresh, hdelta, hstore⟩ := of_ends_syncFile h
  refine ⟨old, fresh, hold, hfresh, hdelta, ?_⟩
  split at hstore
  · rename_i hempty
    rw [(Delta.isEmpty_iff delta).mp hempty]
    exact hstore
  · exact eq_of_ends_transaction hstore

end Table

namespace Store.Gathered

variable {t : Table} {path : String} {old fresh : Graph} {known : EntityName → Prop} {rows' : Rows} {id : String}

/-- Only owned nodes are deleted, and none that the new graph has. -/
theorem of_mem_deletedNodes (hold : Gathered t path old [])
    (h : id ∈ ((Delta.between old fresh).sparing old path).deletedNodes) :
    t.rows.OwnsAt path id ∧ fresh.node? id = none := by
  obtain ⟨n, hn, hgone, howned⟩ := (Delta.mem_deletedNodes_sparing hold.sound).mp (Std.TreeSet.mem_toList.mpr h)
  exact ⟨⟨n, hold.nodes hn, howned⟩, Graph.node?_eq_none_iff.mpr hgone⟩

/-- A deleted node is gone: none comes in its place. -/
theorem gone_of_mem_deletedNodes (hold : Gathered t path old []) (hfresh : fresh.IsSound)
    (hwrites : ((Delta.between old fresh).sparing old path).Writes t.rows rows')
    (h : id ∈ ((Delta.between old fresh).sparing old path).deletedNodes) : rows'.nodes[id]? = none := by
  have hnone : ((Delta.between old fresh).sparing old path).nodeFor? id = none :=
    Delta.nodeFor?_between_of_none hfresh (hold.of_mem_deletedNodes h).2
  rw [hwrites.node, hnone, if_pos h]
  rfl

/-- **An owned node of the new graph** is there in the end, and owned: it comes, or it was there with the same
content. -/
theorem ownsAt (hold : Gathered t path old []) (hfresh : fresh.IsOfFile known path)
    (hwrites : ((Delta.between old fresh).sparing old path).Writes t.rows rows') {n : Node}
    (hn : fresh.node? id = some n) (howned : n.isOwnedBy path = true) : rows'.OwnsAt path id := by
  obtain rfl := hfresh.sound.id_eq hn
  have hplain := hfresh.plain hn
  have hrow := hwrites.node n.id
  by_cases hcomes : n ∈ (Delta.between old fresh).incomingNodes
  · have hfor : ((Delta.between old fresh).sparing old path).nodeFor? n.id = some n :=
      Delta.nodeFor?_between_of_mem hfresh.sound hcomes
    rw [hfor, Option.map_some, Option.some_or] at hrow
    refine ⟨n.reread, ?_, howned⟩
    rw [Rows.node?, hrow]
    show ((NodeRow.ofNode n).toNode n.id).map some = _
    rw [hplain.apart.toNode_ofNode hplain.lacksFloats.keepsFloats]
    rfl
  · obtain ⟨hother, before, hbefore, hsame⟩ := Delta.exists_of_not_mem_incomingNodes hfresh.sound hn hcomes
    have hfor : ((Delta.between old fresh).sparing old path).nodeFor? n.id = none := by
      refine List.find?_eq_none.mpr fun m hm => ?_
      simpa using hother m (List.mem_reverse.mp hm)
    have hstays : n.id ∉ ((Delta.between old fresh).sparing old path).deletedNodes := fun hgone => by
      cases hn.symm.trans (hold.of_mem_deletedNodes hgone).2
    rw [hfor, Option.map_none, Option.none_or, if_neg hstays] at hrow
    have hstored := hold.nodes hbefore
    refine ⟨before, (Rows.node?_congr hrow).trans hstored, ?_⟩
    rw [hplain.isOwnedBy_eq (Rows.id_eq_of_node? hstored) hsame, howned]

/-- An edge that is removed is none of the new graph, and leaves the file or an owned node, or touches an owned node
that goes. -/
theorem of_removes (hold : Gathered t path old []) (hfresh : fresh.IsOfFile known path)
    (hwrites : ((Delta.between old fresh).sparing old path).Writes t.rows rows') {key : EdgeKey}
    (h : ((Delta.between old fresh).sparing old path).Removes key) :
    fresh.hasEdge key = false ∧
      (t.rows.HasOwn path key.source ∨ ∃ id, key.Touches id ∧ t.rows.OwnsAt path id ∧ rows'.nodes[id]? = none) := by
  rcases (Delta.removes_iff _ key).mp h with ⟨id, hid, htouches⟩ | ⟨s, hs, hselects⟩
  · -- An edge goes with one of its ends.
    have hid := Std.TreeSet.mem_toList.mp hid
    obtain ⟨howns, hgone⟩ := hold.of_mem_deletedNodes hid
    refine ⟨?_, .inr ⟨id, htouches, howns, hold.gone_of_mem_deletedNodes hfresh.sound hwrites hid⟩⟩
    rw [Graph.node?_eq_none_iff] at hgone
    rw [Bool.eq_false_iff]
    intro hkey
    rcases htouches with rfl | rfl
    · cases hgone.symm.trans (hfresh.sound.source hkey)
    · cases hgone.symm.trans (hfresh.sound.target hkey)
  · -- Between two graphs edges are deleted one by one.
    obtain ⟨key', rfl, hthere, hgone⟩ := (Delta.mem_deletedEdges hold.sound).mp hs
    obtain rfl : key' = key := by
      rcases hselects with heq | heq
      · exact EdgeSelector.exact_inj.mp heq
      · cases congrArg EdgeSelector.kind heq
    exact ⟨hgone, .inl (hold.source hthere)⟩

/-- **The difference** touches what belongs to the file only. -/
theorem touchedFor (hold : Gathered t path old []) (hfresh : fresh.IsOfFile known path)
    (howned : ∀ {key n}, fresh.hasEdge key = true → fresh.node? key.source = some n → n.isOwnedBy path = true)
    (hwrites : ((Delta.between old fresh).sparing old path).Writes t.rows rows') :
    t.rows.TouchedFor path fresh rows' := by
  constructor
  case node =>
    intro id
    have hrow := hwrites.node id
    cases hcomes : ((Delta.between old fresh).sparing old path).nodeFor? id with
    | some n =>
        rw [hcomes] at hrow
        exact .inr (.inr ⟨n, Delta.of_nodeFor?_between hfresh.sound hcomes, hrow⟩)
    | none =>
        by_cases hgone : id ∈ ((Delta.between old fresh).sparing old path).deletedNodes
        · exact .inr (.inl ⟨(hold.of_mem_deletedNodes hgone).1,
            hold.gone_of_mem_deletedNodes hfresh.sound hwrites hgone⟩)
        · rw [hcomes, Option.map_none, Option.none_or, if_neg hgone] at hrow
          exact .inl hrow
  case edge =>
    intro key
    by_cases hremoved : ((Delta.between old fresh).sparing old path).Removes key
    · obtain ⟨hnone, hreason⟩ := hold.of_removes hfresh hwrites hremoved
      refine .inr (.inl ⟨?_, hreason⟩)
      have hrow := hwrites.added (.inl hremoved)
      cases hcomes : ((Delta.between old fresh).sparing old path).addedEdges.find? fun e => e.key = key with
      | none => simpa [hcomes] using hrow
      | some e =>
          -- What is removed is not in the new graph, so it is not added again.
          cases hnone.symm.trans (Graph.hasEdge_iff.mpr ⟨e, Delta.of_find?_addedEdges hfresh.sound hcomes⟩)
    · cases hrow₀ : t.rows.edges[key]? with
      | some row => exact .inl (hwrites.kept hremoved hrow₀)
      | none =>
          have hrow := hwrites.added (.inr hrow₀)
          cases hcomes : ((Delta.between old fresh).sparing old path).addedEdges.find? fun e => e.key = key with
          | none => exact .inl (by simpa [hcomes] using hrow)
          | some e =>
              have he : fresh.edge? key = some e := Delta.of_find?_addedEdges hfresh.sound hcomes
              have hkey : fresh.hasEdge key = true := Graph.hasEdge_iff.mpr ⟨e, he⟩
              obtain ⟨n, hn⟩ := Graph.hasNode_iff.mp (hfresh.sound.source hkey)
              refine .inr (.inr ⟨rfl, hold.ownsAt hfresh hwrites hn (howned hkey hn), e, he, ?_⟩)
              rw [hrow, hcomes]
              rfl

end Store.Gathered

/-! ## A call -/

/-- **A change touches its own file only.** Whatever is in a table store, a call that gives a change set leaves all
nodes as they are but those that the file owns, which may go, and those of the graph that the file is to have now,
which may be put in their place or come. It leaves all edges as they are but those that leave the file or a node
that it owns or that touch an owned node that goes, which may go, and those of that graph, which may come and leave
the file or a node that it owns. -/
theorem Updater.process_touches {u u' : Updater} {t : Table} {call : SyncCall} {delta : Delta} {s' : Store}
    (h : u.process call.directory call.change (.table t) = (.ok delta, u', s')) :
    ∃ rows' fresh, s' = .table { t with rows := rows' } ∧ call.target u.readers = .ok fresh ∧
      t.rows.TouchedFor call.path fresh rows' := by
  have hresult := congrArg (fun x => x.1) h
  have hstore := congrArg (fun x => x.2.2) h
  have hsync : Action.Ends (syncFile u.readers call.directory call.change) (.table t) delta s' :=
    Prod.ext hresult hstore
  obtain ⟨old, fresh, hold, hfresh, rfl, rfl⟩ := Table.eq_of_ends_syncFile hsync
  refine ⟨_, fresh, rfl, hfresh, ?_⟩
  exact (Store.gathered_fragment hold).touchedFor (SyncCall.isOfFile_target (List.mem_singleton_self call) hfresh)
    (fun hkey hn => SyncCall.isOwnedBy_of_hasEdge hfresh hkey hn) (Delta.writes _ t.rows)

/-- The file had a variable and has a function now. The variable goes, with the edges at it, one of them from another
file. A row that does not decode stays, and an edge from nowhere. -/
theorem Updater.process_touches_oddRows :
    let variable_ (path name : String) : Node := .identified (.variable name name) (some path)
    let reads (source target : String) : Edge := .ofCore source target (.references "read" none)
    let rows := [Edge.ofCore "file:a.py" "variable:a.py:v" (.contains none),
        reads "variable:a.py:v" "variable:b.py:w", reads "variable:b.py:w" "variable:a.py:v",
        reads "nowhere" "variable:b.py:w"].foldl Rows.putEdge
      ([.identified (.file "a.py" "python" 0) none, variable_ "a.py" "v", variable_ "b.py" "w"].foldl Rows.putNode
        { Rows.empty with nodes := .ofList [("odd", (⟨.module, "no properties"⟩ : NodeRow))] })
    let t := Table.ofRows .inMemory rows
    let text := "\x7b\"functions\":[\x7b\"name\":\"f\"\x7d]\x7d"
    let directory : Directory :=
      ⟨.ofList [(["a.py"], DirectoryEntry.file 0)], .ofList [(0, FileContent.bytes (Text.utf8 text))], 1⟩
    let call : SyncCall := ⟨⟨⟨"a.py"⟩, .modify⟩, directory, 0⟩
    let u := Updater.new [⟨"python", [".py"], .standard⟩] .standard
    ∃ delta u' s' rows' fresh, u.process call.directory call.change (.table t) = (.ok delta, u', s') ∧
      s' = .table { t with rows := rows' } ∧ call.target u.readers = .ok fresh ∧
        rows.TouchedFor "a.py" fresh rows' ∧
          ["file:a.py", "function:a.py:f", "odd", "variable:a.py:v", "variable:b.py:w"].map s'.hasNode =
            [.ok true, .ok true, .ok true, .ok false, .ok true] ∧
          (s'.edgesTo "variable:b.py:w" none).map (List.map Edge.source) = .ok ["nowhere"] := by
  intro variable_ reads rows t text directory call u
  obtain ⟨hends, hnodes, hedges⟩ :
      (u.process call.directory call.change (.table t)).1.toOption.isSome = true ∧
        ["file:a.py", "function:a.py:f", "odd", "variable:a.py:v", "variable:b.py:w"].map
            (u.process call.directory call.change (.table t)).2.2.hasNode =
          [.ok true, .ok true, .ok true, .ok false, .ok true] ∧
        ((u.process call.directory call.change (.table t)).2.2.edgesTo "variable:b.py:w" none).map
          (List.map Edge.source) = .ok ["nowhere"] := by decide +kernel
  rcases hprocess : u.process call.directory call.change (.table t) with ⟨why | delta, u', s'⟩
  · rw [hprocess] at hends
    cases hends
  · rw [hprocess] at hnodes hedges
    obtain ⟨rows', fresh, hs, hfresh, htouched⟩ := process_touches hprocess
    exact ⟨delta, u', s', rows', fresh, rfl, hs, hfresh, htouched, hnodes, hedges⟩

end ProgramGraph
