import ProgramGraph.Proofs.Outline.Pieces
import ProgramGraph.Proofs.Store.Layout

set_option autoImplicit false

/-! # What the graph of an outline shows

Read off an outline directly, there are the entities that it declares, those that it only mentions,
and the relations between them. A graph depicts the outline if it has just these nodes and just these
edges, and a mark as placeholder on what is only mentioned (`FileOutline.Depicts`). The graph of an
outline does (`FileOutline.graph_depicts`).

Identifiers may coincide: of two functions with one qualified name, of a base class and a class that
goes by another name, or by the accident of how they are computed. Then one node stands for several
entities, and counts as declared if one of them is.
-/

namespace ProgramGraph

open Text

/-- **An identifier tells the kind** of the entity: it stands before the first colon. -/
theorem EntityName.kind_eq_of_id_eq {a b : EntityName} (h : a.id = b.id) : a.kind = b.kind := by
  have hsplit : ∀ e : EntityName,
      utf8 e.id = utf8 e.kind.name ++ colon :: utf8 (shortenName (scopedName e.name e.scope)) := by
    intro e
    have hcolon : utf8 ":" = [colon] := by decide
    rw [EntityName.id, nodeId, utf8_append, utf8_append, hcolon, List.append_assoc, List.singleton_append]
  have hbytes := congrArg utf8 h
  rw [hsplit, hsplit, eq_part (hasNoColon_nodeKind a.kind) (hasNoColon_nodeKind b.kind)] at hbytes
  exact NodeKind.name_injective (utf8_injective hbytes.1)

/-! ## Marks -/

namespace Node

/-- The node is marked as a placeholder. -/
def IsMarked (n : Node) : Prop := n.property? FileOutline.placeholderKey = some (.bool true)

theorem placeholderKey_notMem_keys (kind : NodeKind) :
    FileOutline.placeholderKey ∉ NodeCore.keys kind := by
  cases kind <;> decide

/-- No core owns the mark. -/
theorem isMarked_iff (n : Node) : n.IsMarked ↔ n.extra[FileOutline.placeholderKey]? = some (.bool true) := by
  have hnone := n.core.within_fields.lookup_eq_none (placeholderKey_notMem_keys n.core.kind)
  rw [IsMarked, property?, properties, n.core.within_fields.getElem?_putOver, hnone, Option.none_or]

theorem not_isMarked_ofCore (id : String) (core : NodeCore) : ¬(ofCore id core).IsMarked := by
  rw [isMarked_iff]
  simp [ofCore]

/-- Another property makes no difference to the mark. -/
theorem isMarked_withExtra_iff {n : Node} {key : String} (value : Property)
    (hkey : key ≠ FileOutline.placeholderKey) : (n.withExtra key value).IsMarked ↔ n.IsMarked := by
  rw [isMarked_iff, isMarked_iff]
  unfold withExtra
  split
  · exact Iff.rfl
  · rw [getElem?_inserted, if_neg hkey.symm]

theorem isMarked_withExtra_true (n : Node) :
    (n.withExtra FileOutline.placeholderKey (.bool true)).IsMarked := by
  rw [isMarked_iff]
  unfold withExtra
  split
  · rename_i howned
    exact absurd (List.contains_iff_mem.mp howned) (placeholderKey_notMem_keys n.kind)
  · exact (getElem?_inserted ..).trans (if_pos rfl)

end Node

namespace FileOutline

theorem fileNode_not_isMarked (f : FileOutline) : ¬f.fileNode.IsMarked := by
  rw [fileNode, Node.isMarked_withExtra_iff _ (by decide), Node.isMarked_withExtra_iff _ (by decide)]
  exact Node.not_isMarked_ofCore _ _

theorem moduleNode_not_isMarked (name : String) (i : ImportOutline) : ¬(moduleNode name i).IsMarked := by
  rw [moduleNode, Node.isMarked_withExtra_iff _ (by decide)]
  exact Node.not_isMarked_ofCore _ _

theorem functionNode_not_isMarked (path : String) (fn : FunctionOutline) :
    ¬(functionNode path fn).IsMarked := by
  rw [functionNode, Node.isMarked_withExtra_iff _ (by decide), Node.isMarked_withExtra_iff _ (by decide),
    Node.isMarked_withExtra_iff _ (by decide)]
  exact Node.not_isMarked_ofCore _ _

theorem classNode_not_isMarked (path : String) (c : ClassOutline) : ¬(classNode path c).IsMarked := by
  rw [classNode, Node.isMarked_withExtra_iff _ (by decide), Node.isMarked_withExtra_iff _ (by decide),
    Node.isMarked_withExtra_iff _ (by decide), Node.isMarked_withExtra_iff _ (by decide)]
  exact Node.not_isMarked_ofCore _ _

theorem calleePlaceholder_isMarked (id name origin : String) :
    (calleePlaceholder id name origin).IsMarked := by
  rw [calleePlaceholder, Node.isMarked_withExtra_iff _ (by decide)]
  exact Node.isMarked_withExtra_true _

theorem basePlaceholder_isMarked (id name : String) : (basePlaceholder id name).IsMarked :=
  Node.isMarked_withExtra_true _

/-! ## Names that calls and base classes refer to -/

variable (f : FileOutline)

/-- The function that goes by a name in the file: of several the last. -/
def functionNamed? (name : String) : Option FunctionOutline :=
  f.functions.reverse.find? fun fn => fn.name == name

/-- The class that goes by a name in the file: of several the last. -/
def classNamed? (name : String) : Option ClassOutline :=
  f.classes.reverse.find? fun c => c.name == name

/-- The name of a function of the file. -/
def functionName (fn : FunctionOutline) : EntityName := ⟨.function, some f.path, fn.qualifiedName⟩

/-- The name of a class of the file. -/
def className (c : ClassOutline) : EntityName := ⟨.classDef, some f.path, c.qualifiedName⟩

/-- What is called by a name: a function of the file, or one that the language provides, or else one
from outside. -/
def calleeName (name : String) : EntityName :=
  match f.functionNamed? name with
  | some fn => f.functionName fn
  | none => ⟨.function, none, (if Callee.isBuiltin name then "builtin." else "external.") ++ name⟩

/-- What a class is derived from by a name: a class of the file, or else one that stands for the name
in the file. -/
def baseName (name : String) : EntityName :=
  match f.classNamed? name with
  | some c => f.className c
  | none => ⟨.classDef, some f.path, name⟩

theorem getElem?_idsByName_functionNodes (name : String) :
    (idsByName f.functionNodes)[name]? = (f.functionNamed? name).map fun fn => (f.functionName fn).id := by
  rw [getElem?_idsByName, functionNodes, ← List.map_reverse, List.find?_map, Option.map_map]
  rfl

theorem getElem?_idsByName_classNodes (name : String) :
    (idsByName f.classNodes)[name]? = (f.classNamed? name).map fun c => (f.className c).id := by
  rw [getElem?_idsByName, classNodes, ← List.map_reverse, List.find?_map, Option.map_map]
  rfl

variable {f}

theorem callee_id_eq (name : String) :
    (Callee.ofName (idsByName f.functionNodes) name).id = (f.calleeName name).id := by
  rw [Callee.ofName, calleeName, getElem?_idsByName_functionNodes]
  cases f.functionNamed? name with
  | some fn => rfl
  | none => cases Callee.isBuiltin name <;> simp [Callee.id, EntityName.id]

/-- A callee comes from outside if no function of the file goes by its name. -/
theorem callee_origin?_isSome (name : String) :
    (Callee.ofName (idsByName f.functionNodes) name).origin?.isSome = (f.functionNamed? name).isNone := by
  rw [Callee.ofName, getElem?_idsByName_functionNodes]
  cases f.functionNamed? name with
  | some fn => simp [Callee.origin?]
  | none => cases Callee.isBuiltin name <;> simp [Callee.origin?]

theorem base_id_eq (name : String) :
    (idsByName f.classNodes)[name]?.getD (nodeId .classDef name (some f.path)) = (f.baseName name).id := by
  rw [baseName, getElem?_idsByName_classNodes]
  cases f.classNamed? name <;> rfl

variable (f)

/-! ## What an outline shows -/

/-- The entity is the file, or is defined or imported in it. -/
inductive Declares : EntityName → Prop where
  | file : Declares (.ofFile f.path)
  | function {fn : FunctionOutline} (hfn : fn ∈ f.functions) : Declares (f.functionName fn)
  | classDef {c : ClassOutline} (hc : c ∈ f.classes) : Declares (f.className c)
  | module {i : ImportOutline} {name : String} (hi : i ∈ f.imports) (hname : i.moduleName? = some name) :
      Declares ⟨.module, none, name⟩

/-- The entity is called in the file, or a class is derived from it, and nothing in the file goes by
that name. -/
inductive Mentions : EntityName → Prop where
  | callee {fn : FunctionOutline} {call : CallOutline} (hfn : fn ∈ f.functions) (hcall : call ∈ fn.calls)
      (hnamed : call.name ≠ "") (houtside : f.functionNamed? call.name = none) :
      Mentions (f.calleeName call.name)
  | base {c : ClassOutline} {name : String} (hc : c ∈ f.classes) (hname : name ∈ c.bases)
      (houtside : f.classNamed? name = none) : Mentions (f.baseName name)

/-- The relation holds between two entities of the outline. -/
inductive Relates : EdgeKey → Prop where
  | function {fn : FunctionOutline} (hfn : fn ∈ f.functions) :
      Relates ⟨(EntityName.ofFile f.path).id, (f.functionName fn).id, .contains⟩
  | classDef {c : ClassOutline} (hc : c ∈ f.classes) :
      Relates ⟨(EntityName.ofFile f.path).id, (f.className c).id, .contains⟩
  | call {fn : FunctionOutline} {call : CallOutline} (hfn : fn ∈ f.functions) (hcall : call ∈ fn.calls)
      (hnamed : call.name ≠ "") : Relates ⟨(f.functionName fn).id, (f.calleeName call.name).id, .calls⟩
  | base {c : ClassOutline} {name : String} (hc : c ∈ f.classes) (hname : name ∈ c.bases) :
      Relates ⟨(f.className c).id, (f.baseName name).id, .inherits⟩
  | module {i : ImportOutline} {name : String} (hi : i ∈ f.imports) (hname : i.moduleName? = some name) :
      Relates ⟨(EntityName.ofFile f.path).id, nodeId .module name none, .imports⟩

/-- The graph shows what the outline declares, mentions and relates, and nothing else. -/
structure Depicts (g : Graph) : Prop where
  hasNode_iff : ∀ id, g.hasNode id = true ↔ ∃ e, (f.Declares e ∨ f.Mentions e) ∧ e.id = id
  kind_eq : ∀ {e n}, f.Declares e ∨ f.Mentions e → g.node? e.id = some n → n.kind = e.kind
  hasEdge_iff : ∀ key, g.hasEdge key = true ↔ f.Relates key
  isMarked_iff : ∀ {id n}, g.node? id = some n → (n.IsMarked ↔ ¬∃ e, f.Declares e ∧ e.id = id)

variable {f}

/-! ## The pieces by what they show -/

theorem mem_entityPieces {p : Piece} :
    p ∈ f.entityPieces ↔
      (∃ fn ∈ f.functions, p = .entity (functionNode f.path fn)
        (.ofCore f.fileNode.id (functionNode f.path fn).id (.contains (some fn.lineStart.toInt64)))) ∨
      ∃ c ∈ f.classes, p = .entity (classNode f.path c)
        (.ofCore f.fileNode.id (classNode f.path c).id (.contains (some c.lineStart.toInt64))) := by
  simp only [entityPieces, functionNodes, classNodes, List.map_append, List.map_map, List.mem_append,
    List.mem_map, Function.comp_apply, eq_comm (b := p)]

theorem mem_linkPieces {p : Piece} :
    p ∈ f.linkPieces ↔
      (∃ fn ∈ f.functions, ∃ call ∈ fn.calls, call.name ≠ "" ∧ p = f.callPiece ((f.functionName fn).id, call)) ∨
      (∃ c ∈ f.classes, ∃ name ∈ c.bases, p = f.basePiece ((f.className c).id, name)) ∨
      ∃ i ∈ f.imports, ∃ name, i.moduleName? = some name ∧ p = .link (importEdge f.fileNode.id name i) := by
  rw [linkPieces, List.mem_append, List.mem_append, or_assoc]
  refine or_congr ?_ (or_congr ?_ ?_)
  · simp only [List.mem_map, List.mem_filter, callList, List.mem_flatMap]
    constructor
    · rintro ⟨-, ⟨⟨fn, hfn, call, hcall, rfl⟩, hnamed⟩, rfl⟩
      exact ⟨fn, hfn, call, hcall, by simpa using hnamed, rfl⟩
    · rintro ⟨fn, hfn, call, hcall, hnamed, rfl⟩
      exact ⟨_, ⟨⟨fn, hfn, call, hcall, rfl⟩, by simpa using hnamed⟩, rfl⟩
  · simp only [List.mem_map, baseList, List.mem_flatMap]
    constructor
    · rintro ⟨-, ⟨c, hc, name, hname, rfl⟩, rfl⟩
      exact ⟨c, hc, name, hname, by rw [(classNode_bears f.path c).id]; rfl⟩
    · rintro ⟨c, hc, name, hname, rfl⟩
      exact ⟨_, ⟨c, hc, name, hname, rfl⟩, by rw [(classNode_bears f.path c).id]; rfl⟩
  · simp only [List.mem_filterMap, importPiece?, Option.map_eq_some_iff, eq_comm (b := p)]

theorem callPiece_key (source : String) (call : CallOutline) :
    (f.callPiece (source, call)).edge.key = ⟨source, (f.calleeName call.name).id, .calls⟩ := by
  rw [← callee_id_eq, callPiece, calleePiece]
  split <;> rfl

theorem callPiece_brings (source : String) (call : CallOutline) (id : String) :
    (f.callPiece (source, call)).Brings id ↔
      f.functionNamed? call.name = none ∧ (f.calleeName call.name).id = id := by
  have houtside := f.callee_origin?_isSome call.name
  rw [← callee_id_eq, ← Option.isNone_iff_eq_none, ← houtside, callPiece, calleePiece]
  -- A placeholder comes just with a callee that is none of the functions of the file.
  cases horigin : (Callee.ofName (idsByName f.functionNodes) call.name).origin? with
  | some origin =>
      constructor
      · rintro ⟨n, hn, rfl⟩
        cases hn
        exact ⟨rfl, rfl⟩
      · rintro ⟨-, rfl⟩
        exact ⟨_, rfl, rfl⟩
  | none =>
      constructor
      · rintro ⟨n, hn, -⟩
        cases hn
      · rintro ⟨hnone, -⟩
        cases hnone

theorem basePiece_key (source name : String) :
    (f.basePiece (source, name)).edge.key = ⟨source, (f.baseName name).id, .inherits⟩ := by
  rw [← base_id_eq]
  rfl

theorem basePiece_brings (source name id : String) :
    (f.basePiece (source, name)).Brings id ↔ (f.baseName name).id = id := by
  rw [← base_id_eq]
  constructor
  · rintro ⟨n, hn, rfl⟩
    cases hn
    rfl
  · rintro rfl
    exact ⟨_, rfl, rfl⟩

/-! ## The skeleton -/

theorem hasEdge_modulesGraph (f : FileOutline) (key : EdgeKey) : f.modulesGraph.hasEdge key = false :=
  Graph.hasEdge_addNodes _ _ key

/-- The first nodes are those of the file and its modules. -/
theorem of_node?_modulesGraph {id : String} {n : Node} (h : f.modulesGraph.node? id = some n) :
    n = f.fileNode ∨ ∃ i ∈ f.imports, ∃ name, i.moduleName? = some name ∧ n = moduleNode name i := by
  rcases Graph.node?_addNodes_cases h with hmodule | hfile
  · obtain ⟨entry, hentry, rfl⟩ := List.mem_map.mp hmodule
    obtain ⟨hi, hname⟩ := moduleName?_of_mem hentry
    exact .inr ⟨entry.2, hi, entry.1, hname, rfl⟩
  · rcases Graph.node?_addNode_cases hfile with ⟨-, rfl⟩ | hnone
    · exact .inl rfl
    · cases hnone

theorem hasNode_modulesGraph_iff (id : String) : f.modulesGraph.hasNode id = true ↔ f.IsRoot id := by
  constructor
  · intro hid
    -- Nothing is reached along an edge, as there is none yet.
    cases f.partial_modulesGraph.reached hid with
    | root hroot => exact hroot
    | step key _ hedge =>
        rw [hasEdge_modulesGraph] at hedge
        cases hedge
  · exact hasNode_modulesGraph

/-- **The nodes of the skeleton** are those of what the outline declares. -/
theorem hasNode_skeleton_iff (id : String) :
    f.skeleton.hasNode id = true ↔ ∃ e, f.Declares e ∧ e.id = id := by
  rw [f.skeletonMade.hasNode_iff, hasNode_modulesGraph_iff]
  constructor
  · rintro ((rfl | ⟨e, he, rfl⟩) | ⟨p, hp, n, hn, rfl⟩)
    · exact ⟨_, .file, rfl⟩
    · obtain ⟨i, hi, heq⟩ := List.mem_filterMap.mp he
      obtain ⟨name, hname, rfl⟩ := Option.map_eq_some_iff.mp heq
      exact ⟨_, .module hi hname, rfl⟩
    · rcases mem_entityPieces.mp hp with ⟨fn, hfn, rfl⟩ | ⟨c, hc, rfl⟩ <;> cases hn
      · exact ⟨_, .function hfn, (functionNode_bears f.path fn).id.symm⟩
      · exact ⟨_, .classDef hc, (classNode_bears f.path c).id.symm⟩
  · rintro ⟨e, he, rfl⟩
    cases he with
    | file => exact .inl (.inl rfl)
    | function hfn =>
        exact .inr ⟨_, mem_entityPieces.mpr (.inl ⟨_, hfn, rfl⟩), _, rfl, (functionNode_bears f.path _).id⟩
    | classDef hc =>
        exact .inr ⟨_, mem_entityPieces.mpr (.inr ⟨_, hc, rfl⟩), _, rfl, (classNode_bears f.path _).id⟩
    | module hi hname => exact .inl (.inr ⟨_, mem_moduleNames.mpr ⟨_, hi, hname⟩, rfl⟩)

/-- A node of the skeleton is that of the file, of a function or class, or of a module. -/
theorem of_node?_skeleton {id : String} {n : Node} (h : f.skeleton.node? id = some n) :
    n = f.fileNode ∨ (∃ fn, n = functionNode f.path fn) ∨ (∃ c, n = classNode f.path c) ∨
      ∃ name i, n = moduleNode name i := by
  rw [skeleton_eq_putAll] at h
  rcases Piece.of_node?_putAll h with ⟨p, hp, hn⟩ | hfirst
  · rcases mem_entityPieces.mp hp with ⟨fn, -, rfl⟩ | ⟨c, -, rfl⟩ <;> cases hn
    · exact .inr (.inl ⟨fn, rfl⟩)
    · exact .inr (.inr (.inl ⟨c, rfl⟩))
  · rcases of_node?_modulesGraph hfirst with rfl | ⟨i, -, name, -, rfl⟩
    · exact .inl rfl
    · exact .inr (.inr (.inr ⟨name, i, rfl⟩))

/-- No node of the skeleton is marked. -/
theorem skeleton_not_isMarked {id : String} {n : Node} (h : f.skeleton.node? id = some n) : ¬n.IsMarked := by
  rcases of_node?_skeleton h with rfl | ⟨fn, rfl⟩ | ⟨c, rfl⟩ | ⟨name, i, rfl⟩
  · exact f.fileNode_not_isMarked
  · exact functionNode_not_isMarked f.path fn
  · exact classNode_not_isMarked f.path c
  · exact moduleNode_not_isMarked name i

/-! ## The whole graph -/

theorem hasNode_graph_iff (id : String) :
    f.graph.hasNode id = true ↔ ∃ e, (f.Declares e ∨ f.Mentions e) ∧ e.id = id := by
  rw [f.linksMade.hasNode_iff, hasNode_skeleton_iff]
  constructor
  · rintro (⟨e, he, rfl⟩ | ⟨p, hp, hbrings⟩)
    · exact ⟨e, .inl he, rfl⟩
    · rcases mem_linkPieces.mp hp with ⟨fn, hfn, call, hcall, hnamed, rfl⟩ | ⟨c, hc, name, hname, rfl⟩ |
        ⟨i, -, name, -, rfl⟩
      · obtain ⟨houtside, hid⟩ := (callPiece_brings _ _ _).mp hbrings
        exact ⟨_, .inr (.callee hfn hcall hnamed houtside), hid⟩
      · have hid := (basePiece_brings _ _ _).mp hbrings
        refine ⟨_, ?_, hid⟩
        cases hfound : f.classNamed? name with
        | none => exact .inr (.base hc hname hfound)
        | some d =>
            -- The base class is one of the file.
            have hd : d ∈ f.classes := List.mem_reverse.mp (List.mem_of_find?_eq_some hfound)
            rw [baseName, hfound]
            exact .inl (.classDef hd)
      · obtain ⟨n, hn, -⟩ := hbrings
        cases hn
  · rintro ⟨e, he | he, rfl⟩
    · exact .inl ⟨e, he, rfl⟩
    · right
      cases he with
      | callee hfn hcall hnamed houtside =>
          exact ⟨_, mem_linkPieces.mpr (.inl ⟨_, hfn, _, hcall, hnamed, rfl⟩),
            (callPiece_brings _ _ _).mpr ⟨houtside, rfl⟩⟩
      | base hc hname houtside =>
          exact ⟨_, mem_linkPieces.mpr (.inr (.inl ⟨_, hc, _, hname, rfl⟩)), (basePiece_brings _ _ _).mpr rfl⟩

/-- A module has a node, and so has a callee that the file does not define. -/
theorem hasNode_graph_of_mem {e : EntityName} (h : e ∈ f.moduleNames ∨ e ∈ f.calleeNames) :
    f.graph.hasNode e.id = true := by
  rw [f.linksMade.hasNode_iff]
  rcases h with h | h
  · exact .inl (f.partial_skeleton.2.1.hasNode (hasNode_modulesGraph (.inr ⟨e, h, rfl⟩)))
  · obtain ⟨call, hcall, hname⟩ := List.mem_filterMap.mp h
    obtain ⟨origin, horigin, rfl⟩ := Option.map_eq_some_iff.mp hname
    have hpiece : f.callPiece call ∈ f.linkPieces :=
      List.mem_append_left _ (List.mem_append_left _ (List.mem_map_of_mem hcall))
    refine .inr ⟨_, hpiece, ?_⟩
    rw [callPiece, calleePiece, horigin]
    exact ⟨_, rfl, callee_id horigin⟩

theorem hasEdge_graph_iff (key : EdgeKey) : f.graph.hasEdge key = true ↔ f.Relates key := by
  rw [f.linksMade.hasEdge_iff, f.skeletonMade.hasEdge_iff, hasEdge_modulesGraph]
  have hfile := f.fileNode_id
  have hfunction : ∀ fn : FunctionOutline, (functionNode f.path fn).id = (f.functionName fn).id :=
    fun fn => (functionNode_bears f.path fn).id
  have hclass : ∀ c : ClassOutline, (classNode f.path c).id = (f.className c).id :=
    fun c => (classNode_bears f.path c).id
  constructor
  -- Each edge comes with a piece, and there is a sort of relation for each sort of piece.
  · rintro ((hnone | ⟨p, hp, rfl⟩) | ⟨p, hp, rfl⟩)
    · cases hnone
    · rcases mem_entityPieces.mp hp with ⟨fn, hfn, rfl⟩ | ⟨c, hc, rfl⟩
      · rw [hfile, hfunction]
        exact .function hfn
      · rw [hfile, hclass]
        exact .classDef hc
    · rcases mem_linkPieces.mp hp with ⟨fn, hfn, call, hcall, hnamed, rfl⟩ | ⟨c, hc, name, hname, rfl⟩ |
        ⟨i, hi, name, hname, rfl⟩
      · rw [callPiece_key]
        exact .call hfn hcall hnamed
      · rw [basePiece_key]
        exact .base hc hname
      · rw [hfile]
        exact .module hi hname
  · intro h
    cases h with
    | function hfn =>
        refine .inl (.inr ⟨_, mem_entityPieces.mpr (.inl ⟨_, hfn, rfl⟩), ?_⟩)
        rw [hfile, hfunction]
        rfl
    | classDef hc =>
        refine .inl (.inr ⟨_, mem_entityPieces.mpr (.inr ⟨_, hc, rfl⟩), ?_⟩)
        rw [hfile, hclass]
        rfl
    | call hfn hcall hnamed =>
        exact .inr ⟨_, mem_linkPieces.mpr (.inl ⟨_, hfn, _, hcall, hnamed, rfl⟩), callPiece_key _ _⟩
    | base hc hname =>
        exact .inr ⟨_, mem_linkPieces.mpr (.inr (.inl ⟨_, hc, _, hname, rfl⟩)), basePiece_key _ _⟩
    | module hi hname =>
        refine .inr ⟨_, mem_linkPieces.mpr (.inr (.inr ⟨_, hi, _, hname, rfl⟩)), ?_⟩
        rw [hfile]
        rfl

theorem spares_of_mem_linkPieces {p : Piece} (hp : p ∈ f.linkPieces) : p.Spares := by
  rintro n e rfl
  rcases mem_linkPieces.mp hp with ⟨fn, -, call, -, -, heq⟩ | ⟨c, -, name, -, heq⟩ | ⟨i, -, name, -, heq⟩
  · rw [callPiece, calleePiece] at heq
    split at heq <;> cases heq
  · cases heq
  · cases heq

/-- What comes with a call or a base class is marked. -/
theorem isMarked_of_mem_linkPieces {p : Piece} (hp : p ∈ f.linkPieces) {n : Node} (hn : p.node? = some n) :
    n.IsMarked := by
  rcases mem_linkPieces.mp hp with ⟨fn, -, call, -, -, rfl⟩ | ⟨c, -, name, -, rfl⟩ | ⟨i, -, name, -, rfl⟩
  · rw [callPiece, calleePiece] at hn
    split at hn <;> cases hn
    exact calleePlaceholder_isMarked _ _ _
  · cases hn
    exact basePlaceholder_isMarked _ _
  · cases hn

theorem graph_eq_putLinks : f.graph = f.linkPieces.foldl Piece.put f.skeleton := by
  rw [graph_eq_putAll, pieces, List.foldl_append, ← skeleton_eq_putAll]

/-- **The skeleton** stays as it is. -/
theorem node?_graph_of_skeleton {id : String} (hthere : f.skeleton.hasNode id = true) :
    f.graph.node? id = f.skeleton.node? id := by
  rw [graph_eq_putLinks]
  exact Piece.node?_putAll (fun p hp => spares_of_mem_linkPieces hp) hthere

/-- **A node is marked** if nothing that the outline declares has its identifier: the skeleton has no marks. -/
theorem isMarked_graph_iff {id : String} {n : Node} (h : f.graph.node? id = some n) :
    n.IsMarked ↔ ¬∃ e, f.Declares e ∧ e.id = id := by
  rw [← hasNode_skeleton_iff]
  by_cases hdeclared : f.skeleton.hasNode id = true
  · rw [node?_graph_of_skeleton hdeclared] at h
    exact iff_of_false (skeleton_not_isMarked h) (not_not_intro hdeclared)
  · refine iff_of_true ?_ hdeclared
    rw [graph_eq_putLinks] at h
    rcases Piece.of_node?_putAll h with ⟨p, hp, hn⟩ | hskeleton
    · exact isMarked_of_mem_linkPieces hp hn
    · rw [Graph.hasNode_eq, hskeleton] at hdeclared
      exact absurd rfl hdeclared

theorem kind_eq_of_graph {e : EntityName} {n : Node} (h : f.graph.node? e.id = some n) : n.kind = e.kind := by
  obtain ⟨e', -, hbears, -⟩ := f.graph_isOfFile.named h
  have hid : e'.id = e.id := hbears.id.symm.trans (f.graph_isOfFile.sound.id_eq h)
  exact hbears.kind.trans (EntityName.kind_eq_of_id_eq hid)

/-- **The graph of an outline** depicts it, and none of its edges is passed over for want of an end:
it comes of all pieces, and putting them in would not fail either. -/
theorem graph_depicts (f : FileOutline) :
    f.Depicts f.graph ∧
      f.graph = f.pieces.foldl Piece.put f.modulesGraph ∧
      f.pieces.foldlM Piece.tryPut f.modulesGraph = .ok f.graph := by
  refine ⟨?_, f.graph_eq_putAll, f.graphMade.made⟩
  constructor
  case hasNode_iff => exact hasNode_graph_iff
  case kind_eq => exact fun _ hn => kind_eq_of_graph hn
  case hasEdge_iff => exact hasEdge_graph_iff
  case isMarked_iff => exact isMarked_graph_iff

end FileOutline

end ProgramGraph
