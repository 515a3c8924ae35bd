import ProgramGraph.Proofs.Outline.Remembering

set_option autoImplicit false

/-! # An assembled graph in pieces

An outline is a list of pieces, each of them an edge and perhaps a node that comes with it. The
graph of the outline is what comes of putting the pieces in one after the other, on top of the file
and its modules (`FileOutline.graph_eq_putAll`). An assembly passes over an edge with a missing end.
This never happens: if a missing end were a failure, putting the pieces in would not fail, and would
lead to the same graph (`FileOutline.graphMade`).

The reason is an invariant of two parts of the list. While functions and classes are put in, the file
is there, and each brings its own node. From then on all of them are there, and what a call or a base
class refers to is one of them or comes as a placeholder.
-/

namespace ProgramGraph

/-! ## Pieces -/

/-- A piece of a graph. -/
inductive Piece where
  /-- A node, in place of one with its identifier, and an edge. -/
  | entity (n : Node) (e : Edge)
  /-- A node, unless there is one with its identifier, and an edge. -/
  | mention (n : Node) (e : Edge)
  /-- An edge between nodes that are there. -/
  | link (e : Edge)

namespace Piece

/-- The edge of the piece. -/
def edge : Piece → Edge
  | entity _ e | mention _ e | link e => e

/-- The node of the piece. -/
def node? : Piece → Option Node
  | entity n _ | mention n _ => some n
  | link _ => none

/-- Puts the node of the piece in. -/
def prepare (g : Graph) : Piece → Graph
  | entity n _ => g.addNode n
  | mention n _ => FileOutline.ensureNode g n
  | link _ => g

/-- Puts the piece in. An edge with a missing end is passed over. -/
def put (g : Graph) (p : Piece) : Graph := (p.prepare g).attach p.edge

/-- Puts the piece in. An edge with a missing end is a failure. -/
def tryPut (g : Graph) (p : Piece) : Outcome Graph := (p.prepare g).addEdge p.edge

/-- The piece brings a node with the identifier. -/
def Brings (p : Piece) (id : String) : Prop := ∃ n, p.node? = some n ∧ n.id = id

/-- Both ends of the edge are there, or the piece brings its target. -/
structure Fits (g : Graph) (p : Piece) : Prop where
  source : g.hasNode p.edge.source = true
  target : g.hasNode p.edge.target = true ∨ p.Brings p.edge.target

theorem hasNode_prepare (g : Graph) (p : Piece) (id : String) :
    (p.prepare g).hasNode id = true ↔ g.hasNode id = true ∨ p.Brings id := by
  cases p with
  | entity n e =>
      show (g.addNode n).hasNode id = true ↔ _
      have hbrings : (entity n e).Brings id ↔ n.id = id := by simp [Brings, node?]
      rw [hbrings, Graph.hasNode_addNode_iff, or_comm, eq_comm (a := id)]
  | mention n e =>
      show (FileOutline.ensureNode g n).hasNode id = true ↔ _
      have hbrings : (mention n e).Brings id ↔ n.id = id := by simp [Brings, node?]
      rw [hbrings, FileOutline.ensureNode]
      split
      · -- The node is there already.
        rename_i hthere
        exact ⟨.inl, fun h => h.elim (fun h => h) fun hid => hid ▸ hthere⟩
      · rw [Graph.hasNode_addNode_iff, or_comm, eq_comm (a := id)]
  | link e =>
      show g.hasNode id = true ↔ _
      simp [Brings, node?]

theorem hasEdge_prepare (g : Graph) (p : Piece) (key : EdgeKey) :
    (p.prepare g).hasEdge key = g.hasEdge key := by
  cases p with
  | entity n e => rfl
  | mention n e =>
      show (FileOutline.ensureNode g n).hasEdge key = _
      rw [FileOutline.ensureNode]
      split <;> rfl
  | link e => rfl

theorem Fits.joins {g : Graph} {p : Piece} (h : p.Fits g) :
    p.tryPut g = .ok (p.put g) ∧ (p.prepare g).Joins p.edge (p.put g) := by
  have hsource : (p.prepare g).hasNode p.edge.source = true := (hasNode_prepare g p _).mpr (.inl h.source)
  have htarget : (p.prepare g).hasNode p.edge.target = true := (hasNode_prepare g p _).mpr h.target
  refine ⟨?_, Graph.joins_attach hsource htarget⟩
  obtain ⟨g', hadd, -⟩ := Graph.addEdge_eq hsource htarget
  rw [tryPut, put, Graph.attach, hadd]

theorem Fits.hasNode_put {g : Graph} {p : Piece} (h : p.Fits g) (id : String) :
    (p.put g).hasNode id = true ↔ g.hasNode id = true ∨ p.Brings id := by
  rw [h.joins.2.hasNode]
  exact hasNode_prepare g p id

theorem Fits.hasEdge_put {g : Graph} {p : Piece} (h : p.Fits g) (key : EdgeKey) :
    (p.put g).hasEdge key = true ↔ g.hasEdge key = true ∨ p.edge.key = key := by
  rw [h.joins.2.hasEdge, hasEdge_prepare, Bool.or_eq_true, decide_eq_true_eq, or_comm, eq_comm (a := key)]

/-! ## Lists of pieces -/

/-- Putting pieces in does not fail, and leads to a graph with just their nodes and edges added. -/
structure Makes (g : Graph) (pieces : List Piece) (g' : Graph) : Prop where
  made : pieces.foldlM tryPut g = .ok g'
  hasNode_iff : ∀ id, g'.hasNode id = true ↔ g.hasNode id = true ∨ ∃ p ∈ pieces, p.Brings id
  hasEdge_iff : ∀ key, g'.hasEdge key = true ↔ g.hasEdge key = true ∨ ∃ p ∈ pieces, p.edge.key = key

/-- **Pieces that fit** are put in one after the other, since a graph loses nothing by that. -/
theorem makes_putAll {pieces : List Piece} {g : Graph} (h : ∀ p ∈ pieces, p.Fits g) :
    Makes g pieces (pieces.foldl put g) := by
  induction pieces generalizing g with
  | nil =>
      constructor
      · rfl
      · intro id
        simp
      · intro key
        simp
  | cons p rest ih =>
      have hp : p.Fits g := h p List.mem_cons_self
      -- A piece leaves the ends of the others where they are, so they fit afterwards as well.
      have hrest : Makes (p.put g) rest (rest.foldl put (p.put g)) := by
        apply ih
        intro q hq
        have hq : q.Fits g := h q (List.mem_cons_of_mem _ hq)
        exact ⟨(hp.hasNode_put _).mpr (.inl hq.source), hq.target.imp_left fun ht => (hp.hasNode_put _).mpr (.inl ht)⟩
      constructor
      · rw [List.foldlM_cons, hp.joins.1]
        exact hrest.made
      · intro id
        rw [List.foldl_cons, hrest.hasNode_iff, hp.hasNode_put, or_assoc]
        simp only [List.mem_cons, or_and_right, exists_or, exists_eq_left]
      · intro key
        rw [List.foldl_cons, hrest.hasEdge_iff, hp.hasEdge_put, or_assoc]
        simp only [List.mem_cons, or_and_right, exists_or, exists_eq_left]

theorem Makes.append {first next : List Piece} {g g' g'' : Graph} (hfirst : Makes g first g')
    (hnext : Makes g' next g'') : Makes g (first ++ next) g'' where
  made := by
    rw [List.foldlM_append, hfirst.made]
    exact hnext.made
  hasNode_iff id := by
    rw [hnext.hasNode_iff, hfirst.hasNode_iff, or_assoc]
    simp only [List.mem_append, or_and_right, exists_or]
  hasEdge_iff key := by
    rw [hnext.hasEdge_iff, hfirst.hasEdge_iff, or_assoc]
    simp only [List.mem_append, or_and_right, exists_or]

/-- A node comes with a piece, or was there before it. -/
theorem of_node?_put {g : Graph} {p : Piece} {id : String} {n : Node} (h : (p.put g).node? id = some n) :
    p.node? = some n ∨ g.node? id = some n := by
  rw [put, Graph.node?_attach] at h
  have hadd : ∀ {m : Node}, (g.addNode m).node? id = some n → some m = some n ∨ g.node? id = some n := by
    intro m hm
    rcases Graph.node?_addNode_cases hm with ⟨-, rfl⟩ | hm
    · exact .inl rfl
    · exact .inr hm
  cases p with
  | entity m e => exact hadd h
  | mention m e =>
      rw [prepare, FileOutline.ensureNode] at h
      split at h
      · exact .inr h
      · exact hadd h
  | link e => exact .inr h

/-- A node comes with one of the pieces, or was there before them. -/
theorem of_node?_putAll {pieces : List Piece} {g : Graph} {id : String} {n : Node}
    (h : (pieces.foldl put g).node? id = some n) :
    (∃ p ∈ pieces, p.node? = some n) ∨ g.node? id = some n := by
  induction pieces generalizing g with
  | nil => exact .inr h
  | cons p rest ih =>
      rcases ih h with ⟨q, hq, hn⟩ | hnext
      · exact .inl ⟨q, List.mem_cons_of_mem _ hq, hn⟩
      · exact (of_node?_put hnext).imp_left fun hn => ⟨p, List.mem_cons_self, hn⟩

/-- The piece puts no node in the place of another. -/
def Spares (p : Piece) : Prop := ∀ n e, p ≠ entity n e

/-- **Nodes that are there stay** while pieces are put in that spare them. -/
theorem node?_putAll {pieces : List Piece} (hspares : ∀ p ∈ pieces, p.Spares) {g : Graph} {id : String}
    (hthere : g.hasNode id = true) : (pieces.foldl put g).node? id = g.node? id := by
  induction pieces generalizing g with
  | nil => rfl
  | cons p rest ih =>
      have hstep : (p.put g).node? id = g.node? id := by
        rw [put, Graph.node?_attach]
        cases p with
        | entity n e => exact absurd rfl (hspares _ List.mem_cons_self n e)
        | mention n e =>
            rw [prepare, FileOutline.ensureNode]
            split
            · rfl
            · rename_i hmissing
              -- The node put in is not the one that is there.
              have hne : id ≠ n.id := fun heq => hmissing (heq ▸ hthere)
              rw [Graph.node?_addNode, if_neg hne]
        | link e => rfl
      rw [List.foldl_cons, ih (fun q hq => hspares q (List.mem_cons_of_mem _ hq)) (by
        rw [Graph.hasNode_eq, hstep, ← Graph.hasNode_eq]
        exact hthere), hstep]

end Piece

/-! ## The pieces of an outline -/

namespace FileOutline

variable (f : FileOutline)

/-- The functions and classes. -/
def entityPieces : List Piece :=
  (f.functionNodes ++ f.classNodes).map fun entity =>
    .entity entity.1 (.ofCore f.fileNode.id entity.1.id (.contains (some entity.2.toInt64)))

/-- A call of a callee, given with the identifier of the calling function. -/
def calleePiece (callee : Callee) (call : String × CallOutline) : Piece :=
  match callee.origin? with
  | some origin => .mention (calleePlaceholder callee.id call.2.name origin) (callEdge call.1 callee.id call.2)
  | none => .link (callEdge call.1 callee.id call.2)

/-- A call, given with the identifier of the calling function. -/
def callPiece (call : String × CallOutline) : Piece :=
  calleePiece (Callee.ofName (idsByName f.functionNodes) call.2.name) call

/-- A base class, given with the identifier of the deriving class. -/
def basePiece (base : String × String) : Piece :=
  let target := (idsByName f.classNodes)[base.2]?.getD (nodeId .classDef base.2 (some f.path))
  .mention (basePlaceholder target base.2) (.ofCore base.1 target (.inherits "single"))

/-- An import, if it names a module. -/
def importPiece? (i : ImportOutline) : Option Piece :=
  i.moduleName?.map fun name => .link (importEdge f.fileNode.id name i)

/-- The calls with a name, the base classes and the imports. -/
def linkPieces : List Piece :=
  (f.callList.filter fun call => !call.2.name.isEmpty).map f.callPiece ++ f.baseList.map f.basePiece ++
    f.imports.filterMap f.importPiece?

/-- All pieces, in the order in which they are put in. -/
def pieces : List Piece := f.entityPieces ++ f.linkPieces

variable {f}

theorem skeleton_eq_putAll : f.skeleton = f.entityPieces.foldl Piece.put f.modulesGraph := by
  rw [entityPieces, List.foldl_map]
  rfl

/-- A call is put in as its piece. -/
theorem addCallAnew_eq_put {call : String × CallOutline} (hnamed : call.2.name.isEmpty = false)
    (g : Graph) : f.addCallAnew g call.1 call.2 = (f.callPiece call).put g := by
  rw [addCallAnew, hnamed, if_neg Bool.false_ne_true, callPiece, calleePiece, addCallOf]
  cases (Callee.ofName (idsByName f.functionNodes) call.2.name).origin? <;> rfl

theorem addCallsAnew_eq_putAll (calls : List (String × CallOutline)) (g : Graph) :
    calls.foldl (fun g (call : String × CallOutline) => f.addCallAnew g call.1 call.2) g =
      ((calls.filter fun call => !call.2.name.isEmpty).map f.callPiece).foldl Piece.put g := by
  induction calls generalizing g with
  | nil => rfl
  | cons call rest ih =>
      rw [List.foldl_cons, ih]
      cases hnamed : call.2.name.isEmpty with
      | true =>
          have hsame : f.addCallAnew g call.1 call.2 = g := by
            rw [addCallAnew, hnamed, if_pos rfl]
          rw [hsame, List.filter_cons_of_neg (by simp [hnamed])]
      | false =>
          rw [List.filter_cons_of_pos (by simp [hnamed]), List.map_cons, List.foldl_cons,
            addCallAnew_eq_put hnamed]

theorem addImports_eq_putAll (imports : List ImportOutline) (g : Graph) :
    imports.foldl f.addImport g = (imports.filterMap f.importPiece?).foldl Piece.put g := by
  induction imports generalizing g with
  | nil => rfl
  | cons i rest ih =>
      rw [List.foldl_cons, ih, List.filterMap_cons, addImport, importPiece?]
      cases i.moduleName? <;> rfl

/-- **The graph of an outline** comes of its pieces. -/
theorem graph_eq_putAll (f : FileOutline) : f.graph = f.pieces.foldl Piece.put f.modulesGraph := by
  have hanew : f.graphAnew = f.imports.foldl f.addImport
      (f.baseList.foldl (f.addBase (idsByName f.classNodes))
        (f.callList.foldl (fun g (call : String × CallOutline) => f.addCallAnew g call.1 call.2)
          f.skeleton)) := rfl
  rw [graph_eq_graphAnew, hanew, addCallsAnew_eq_putAll, addImports_eq_putAll, pieces, linkPieces,
    List.foldl_append, List.foldl_append, List.foldl_append, List.foldl_map (f := f.basePiece),
    skeleton_eq_putAll]
  rfl

/-! ## No edge is passed over -/

theorem fits_entityPieces : ∀ p ∈ f.entityPieces, p.Fits f.modulesGraph := by
  intro p hp
  obtain ⟨entity, -, rfl⟩ := List.mem_map.mp hp
  exact ⟨hasNode_modulesGraph (.inl f.fileNode_id), .inr ⟨entity.1, rfl, rfl⟩⟩

/-- A function or class that is defined in the file has its node in the skeleton. -/
theorem hasNode_skeleton_of_entity {entity : Node × UInt64} (h : entity ∈ f.functionNodes ++ f.classNodes) :
    f.skeleton.hasNode entity.1.id = true := by
  obtain ⟨⟨e, he, hbears⟩, -⟩ := bears_of_mem_entities h
  rw [hbears.id]
  exact f.partial_skeleton.2.2 e he

theorem fits_callPiece {call : String × CallOutline} (h : call ∈ f.callList) :
    (f.callPiece call).Fits f.skeleton := by
  obtain ⟨fn, hfn, hmem⟩ := List.mem_flatMap.mp h
  obtain ⟨c, -, rfl⟩ := List.mem_map.mp hmem
  have hsource : f.skeleton.hasNode (nodeId .function fn.qualifiedName (some f.path)) = true :=
    f.partial_skeleton.2.2 ⟨.function, some f.path, fn.qualifiedName⟩
      (List.mem_append_left _ (List.mem_map_of_mem hfn))
  unfold callPiece calleePiece
  split
  · exact ⟨hsource, .inr ⟨_, rfl, rfl⟩⟩
  · rename_i _ horigin
    -- The callee is a function of the file.
    refine ⟨hsource, .inl ?_⟩
    show f.skeleton.hasNode (Callee.ofName (idsByName f.functionNodes) c.name).id = true
    unfold Callee.ofName at horigin ⊢
    cases hfound : (idsByName f.functionNodes)[c.name]? with
    | none =>
        rw [hfound] at horigin
        cases hbuiltin : Callee.isBuiltin c.name <;> simp [hbuiltin, Callee.origin?] at horigin
    | some id =>
        obtain ⟨entity, hentity, rfl⟩ := exists_of_idsByName hfound
        exact hasNode_skeleton_of_entity (List.mem_append_left _ hentity)

theorem fits_basePiece {base : String × String} (h : base ∈ f.baseList) :
    (f.basePiece base).Fits f.skeleton := by
  obtain ⟨c, hc, hmem⟩ := List.mem_flatMap.mp h
  obtain ⟨name, -, rfl⟩ := List.mem_map.mp hmem
  constructor
  · exact hasNode_skeleton_of_entity (List.mem_append_right _ (List.mem_map_of_mem hc))
  · exact .inr ⟨_, rfl, Node.withExtra_id _ _ _⟩

theorem fits_importPiece {i : ImportOutline} (hi : i ∈ f.imports) {p : Piece} (hp : f.importPiece? i = some p) :
    p.Fits f.skeleton := by
  obtain ⟨name, hname, rfl⟩ := Option.map_eq_some_iff.mp hp
  have hroot : ∀ {id}, f.IsRoot id → f.skeleton.hasNode id = true := fun h =>
    f.partial_skeleton.2.1.hasNode (hasNode_modulesGraph h)
  exact ⟨hroot (.inl f.fileNode_id), .inl (hroot (.inr ⟨_, mem_moduleNames.mpr ⟨i, hi, hname⟩, rfl⟩))⟩

theorem fits_linkPieces : ∀ p ∈ f.linkPieces, p.Fits f.skeleton := by
  intro p hp
  rw [linkPieces, List.mem_append, List.mem_append] at hp
  rcases hp with (hp | hp) | hp
  · obtain ⟨call, hcall, rfl⟩ := List.mem_map.mp hp
    exact fits_callPiece (List.mem_filter.mp hcall).1
  · obtain ⟨base, hbase, rfl⟩ := List.mem_map.mp hp
    exact fits_basePiece hbase
  · obtain ⟨i, hi, hp⟩ := List.mem_filterMap.mp hp
    exact fits_importPiece hi hp

/-- The functions and classes are put in, and the skeleton is made. -/
theorem skeletonMade (f : FileOutline) : Piece.Makes f.modulesGraph f.entityPieces f.skeleton := by
  rw [skeleton_eq_putAll]
  exact Piece.makes_putAll fits_entityPieces

/-- The calls, base classes and imports are put in, and the graph is made. -/
theorem linksMade (f : FileOutline) : Piece.Makes f.skeleton f.linkPieces f.graph := by
  rw [graph_eq_putAll, pieces, List.foldl_append, ← skeleton_eq_putAll]
  exact Piece.makes_putAll fits_linkPieces

/-- **All pieces are put in**, and none of them fails. -/
theorem graphMade (f : FileOutline) : Piece.Makes f.modulesGraph f.pieces f.graph :=
  f.skeletonMade.append f.linksMade

end FileOutline

end ProgramGraph
