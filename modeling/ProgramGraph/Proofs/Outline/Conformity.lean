import ProgramGraph.Proofs.Outline.Depiction
import ProgramGraph.Query.Schema

set_option autoImplicit false

/-! # Built graphs conform to their schema

The properties of a node are its core and its extra properties. The schema of built graphs knows the
properties that a core owns, and requires only such as every core of the kind has
(`NodeCore.isSome_lookup_required`). So a node conforms if its extra properties are known, and an edge,
which is built without extra properties, always does. Every node that is put into the graph of an
outline is made of a core by adding known extra properties (`Node.IsBuilt`).

A query is warned about only where it asks for a property that the schema does not know, so never for
properties of built nodes (`FileOutline.graph_conforms`).
-/

namespace ProgramGraph

/-! ## What a schema admits -/

/-- The properties are known, and those that are required are there. -/
structure NodeSchema.Admits (s : NodeSchema) (props : Properties) : Prop where
  required : ∀ key ∈ s.required, key ∈ props
  known : ∀ key ∈ props, s.knows key = true

namespace Schema

/-- The kind of the node is one of the schema, and its properties are admitted there. -/
def AdmitsNode (s : Schema) (n : Node) : Prop :=
  ∃ kind, s.nodeKinds[n.kind.name]? = some kind ∧ kind.Admits n.properties

/-- The relation is one of the schema, and the properties of the edge are listed there. -/
def AdmitsEdge (s : Schema) (e : Edge) : Prop :=
  ∃ listed, s.edgeKinds[e.kind.name]? = some listed ∧ ∀ key ∈ e.properties, key ∈ listed

theorem nodeKinds_minimal (kind : NodeKind) : minimal.nodeKinds[kind.name]? = some (builtNode kind) := by
  cases kind <;> rfl

theorem edgeKinds_minimal (kind : EdgeKind) : minimal.edgeKinds[kind.name]? = some (builtEdge kind) := by
  cases kind <;> rfl

end Schema

/-! ## Cores -/

/-- **Every core has what is required** of its kind. -/
theorem NodeCore.isSome_lookup_required (core : NodeCore) :
    ∀ key ∈ (Schema.builtNode core.kind).required, (core.fields.lookup key).isSome = true := by
  cases core <;> simp [kind, Schema.builtNode, fields, List.lookup_cons]

theorem knows_of_mem_keys {kind : NodeKind} :
    ∀ key ∈ NodeCore.keys kind, (Schema.builtNode kind).knows key = true := by
  cases kind <;> decide

theorem mem_builtEdge_of_mem_keys {kind : EdgeKind} :
    ∀ key ∈ EdgeCore.keys kind, key ∈ Schema.builtEdge kind := by
  cases kind <;> decide

/-- A property comes from the core or is an extra one. -/
theorem Fields.Within.mem_putOver {fields : Fields} {keys : List String} (h : fields.Within keys)
    {props : Properties} {key : String} (hkey : key ∈ fields.putOver props) :
    key ∈ keys ∨ key ∈ props := by
  rw [Std.TreeMap.mem_iff_isSome_getElem?, h.getElem?_putOver] at hkey
  by_cases hcore : key ∈ keys
  · exact .inl hcore
  · rw [h.lookup_eq_none hcore, Option.none_or] at hkey
    exact .inr (Std.TreeMap.mem_iff_isSome_getElem?.mpr hkey)

namespace Node

/-- The node is of a kind, and its extra properties are known for it. -/
structure IsBuilt (kind : NodeKind) (n : Node) : Prop where
  kind_eq : n.kind = kind
  known : ∀ key ∈ n.extra, (Schema.builtNode kind).knows key = true

theorem isBuilt_bare {kind : NodeKind} {n : Node} (h : n.kind = kind) (hbare : n.extra = ∅) :
    n.IsBuilt kind where
  kind_eq := h
  known key hkey := by
    rw [hbare] at hkey
    exact absurd hkey Std.TreeMap.not_mem_emptyc

namespace IsBuilt

variable {kind : NodeKind} {n : Node}

/-- **Another known property** is added. -/
theorem withExtra (h : n.IsBuilt kind) {key : String} (hkey : (Schema.builtNode kind).knows key = true)
    (value : Property) : (n.withExtra key value).IsBuilt kind where
  kind_eq := (withExtra_kind n key value).trans h.kind_eq
  known other hother := by
    unfold Node.withExtra at hother
    split at hother
    · -- A name of the core is not taken up.
      exact h.known other hother
    · rcases eq_or_ne other key with rfl | hne
      · exact hkey
      · rw [Std.TreeMap.mem_iff_isSome_getElem?, getElem?_inserted, if_neg hne,
          ← Std.TreeMap.mem_iff_isSome_getElem?] at hother
        exact h.known other hother

/-- **A built node** conforms to the schema. -/
theorem admitsNode (h : n.IsBuilt kind) : Schema.minimal.AdmitsNode n := by
  obtain rfl := h.kind_eq
  refine ⟨_, Schema.nodeKinds_minimal n.kind, fun key hkey => ?_, fun key hkey => ?_⟩
  · rw [Std.TreeMap.mem_iff_isSome_getElem?, properties, n.core.within_fields.getElem?_putOver,
      Option.isSome_or, n.core.isSome_lookup_required key hkey, Bool.true_or]
  · rcases n.core.within_fields.mem_putOver hkey with hcore | hextra
    · exact knows_of_mem_keys key hcore
    · exact h.known key hextra

end IsBuilt

end Node

/-! ## Nodes of outlines -/

namespace FileOutline

open Node

theorem fileNode_isBuilt (f : FileOutline) : f.fileNode.IsBuilt .file := by
  rw [fileNode]
  refine .withExtra (.withExtra ?_ (by decide) _) (by decide) _
  exact isBuilt_bare rfl rfl

theorem moduleNode_isBuilt (name : String) (i : ImportOutline) :
    (moduleNode name i).IsBuilt .module := by
  rw [moduleNode]
  refine .withExtra ?_ (by decide) _
  exact isBuilt_bare rfl rfl

theorem functionNode_isBuilt (path : String) (fn : FunctionOutline) :
    (functionNode path fn).IsBuilt .function := by
  rw [functionNode]
  refine .withExtra (.withExtra (.withExtra ?_ (by decide) _) (by decide) _)
    (by decide) _
  exact isBuilt_bare rfl rfl

theorem classNode_isBuilt (path : String) (c : ClassOutline) :
    (classNode path c).IsBuilt .classDef := by
  rw [classNode]
  refine .withExtra (.withExtra (.withExtra (.withExtra ?_ (by decide) _)
    (by decide) _) (by decide) _) (by decide) _
  exact isBuilt_bare rfl rfl

theorem calleePlaceholder_isBuilt (id name origin : String) :
    (calleePlaceholder id name origin).IsBuilt .function := by
  rw [calleePlaceholder]
  refine .withExtra (.withExtra ?_ (by decide) _) (by decide) _
  exact isBuilt_bare rfl rfl

theorem basePlaceholder_isBuilt (id name : String) : (basePlaceholder id name).IsBuilt .classDef := by
  rw [basePlaceholder]
  refine .withExtra ?_ (by decide) _
  exact isBuilt_bare rfl rfl

variable {f : FileOutline}

/-- A node that comes with a call or a base class is built. -/
theorem exists_isBuilt_of_mem_linkPieces {p : Piece} (hp : p ∈ f.linkPieces) {n : Node}
    (hn : p.node? = some n) : ∃ kind, n.IsBuilt kind := by
  rcases mem_linkPieces.mp hp with
    ⟨fn, -, call, -, -, rfl⟩ | ⟨c, -, name, -, rfl⟩ | ⟨i, -, name, -, rfl⟩
  · rw [callPiece, calleePiece] at hn
    split at hn <;> cases hn
    exact ⟨_, calleePlaceholder_isBuilt _ _ _⟩
  · cases hn
    exact ⟨_, basePlaceholder_isBuilt _ _⟩
  · cases hn

/-- **Every node of the graph** is built. -/
theorem exists_isBuilt {id : String} {n : Node} (h : f.graph.node? id = some n) :
    ∃ kind, n.IsBuilt kind := by
  rw [graph_eq_putLinks] at h
  rcases Piece.of_node?_putAll h with ⟨p, hp, hn⟩ | hskeleton
  · exact exists_isBuilt_of_mem_linkPieces hp hn
  · rcases of_node?_skeleton hskeleton with rfl | ⟨fn, rfl⟩ | ⟨c, rfl⟩ | ⟨name, i, rfl⟩
    · exact ⟨_, f.fileNode_isBuilt⟩
    · exact ⟨_, functionNode_isBuilt f.path fn⟩
    · exact ⟨_, classNode_isBuilt f.path c⟩
    · exact ⟨_, moduleNode_isBuilt name i⟩

theorem admitsNode_of_graph {id : String} {n : Node} (h : f.graph.node? id = some n) :
    Schema.minimal.AdmitsNode n :=
  have ⟨_, hbuilt⟩ := exists_isBuilt h
  hbuilt.admitsNode

/-- An edge of the graph has no properties but those of its core. -/
theorem admitsEdge_of_graph {key : EdgeKey} {e : Edge} (h : f.graph.edge? key = some e) :
    Schema.minimal.AdmitsEdge e := by
  refine ⟨_, Schema.edgeKinds_minimal e.kind, fun name hname => ?_⟩
  rcases e.core.within_fields.mem_putOver hname with hcore | hextra
  · exact mem_builtEdge_of_mem_keys name hcore
  · rw [f.graph_isOfFile.bare h] at hextra
    exact absurd hextra Std.TreeMap.not_mem_emptyc

/-! ## Queries -/

/-- The property is one of a built node of the kind with a name. -/
def Occurs (kindName name : String) : Prop :=
  ∃ (f : FileOutline) (id : String) (n : Node), f.graph.node? id = some n ∧ n.kind.name = kindName ∧
    name ∈ n.properties

/-- The schema knows the properties of built nodes. -/
theorem Occurs.knows {kindName name : String} (h : Occurs kindName name) {kind : NodeSchema}
    (hkind : Schema.minimal.nodeKinds[kindName]? = some kind) : kind.knows name = true := by
  obtain ⟨f, id, n, hn, rfl, hname⟩ := h
  obtain ⟨kind', hkind', hadmits⟩ := admitsNode_of_graph hn
  obtain rfl := Option.some.inj (hkind.symm.trans hkind')
  exact hadmits.known name hname

/-- **A query gives no warning** if it only asks for properties of built nodes of its kind. -/
theorem check_eq_nil {q : Query} (hkind : Text.lowerAscii q.kind ∈ Schema.minimal.nodeKinds)
    (hasks : ∀ name op value, .attribute name op value ∈ q.conditionList →
      Occurs (Text.lowerAscii q.kind) name) : Schema.minimal.check q = .ok [] := by
  obtain ⟨kind, hfound⟩ := Option.isSome_iff_exists.mp (Std.TreeMap.mem_iff_isSome_getElem?.mp hkind)
  have hnone : ∀ c ∈ q.conditionList,
      Schema.minimal.warning? (Text.lowerAscii q.kind) kind c = none := by
    intro c hc
    cases c with
    | «attribute» name op value => exact if_pos ((hasks name op value hc).knows hfound)
    | related relation target =>
        have hlisted : Schema.minimal.edgeKinds.contains relation.name = true := by
          cases relation <;> rfl
        exact if_pos hlisted
  rw [Schema.check, hfound]
  exact congrArg Except.ok (List.filterMap_eq_nil_iff.mpr hnone)

/-- **Built graphs conform to their schema.** Every node has all properties that are required of its kind
and only such as are known for it, and every edge only such as are listed for its relation. So a query
for nodes of a known kind that asks for properties of built nodes of that kind gives no warning. -/
theorem graph_conforms :
    (∀ (f : FileOutline) {id n}, f.graph.node? id = some n → Schema.minimal.AdmitsNode n) ∧
    (∀ (f : FileOutline) {key e}, f.graph.edge? key = some e → Schema.minimal.AdmitsEdge e) ∧
    ∀ q : Query, Text.lowerAscii q.kind ∈ Schema.minimal.nodeKinds →
      (∀ name op value, .attribute name op value ∈ q.conditionList →
        Occurs (Text.lowerAscii q.kind) name) → Schema.minimal.check q = .ok [] :=
  ⟨fun _ _ _ => admitsNode_of_graph, fun _ _ _ => admitsEdge_of_graph,
    fun _ hkind hasks => check_eq_nil hkind hasks⟩

/-- A file with one function, and a query for functions with its name. -/
theorem graph_conforms_function :
    let f := { FileOutline.plain "a.py" "python" with functions := [.plain "g" 1 2] }
    let q : Query := ⟨"Function", none, some ⟨.attribute "name" .like (.text "g"), []⟩, none, none⟩
    (∃ id n, f.graph.node? id = some n ∧ Schema.minimal.AdmitsNode n) ∧
      (∃ key e, f.graph.edge? key = some e ∧ Schema.minimal.AdmitsEdge e) ∧
      Text.lowerAscii q.kind ∈ Schema.minimal.nodeKinds ∧ Occurs (Text.lowerAscii q.kind) "name" ∧
      Schema.minimal.check q = .ok [] := by
  intro f q
  let fn := FunctionOutline.plain "g" 1 2
  have hfn : fn ∈ f.functions := List.mem_singleton_self fn
  obtain ⟨n, hn⟩ := Graph.hasNode_iff.mp
    ((hasNode_graph_iff _).mpr ⟨f.functionName fn, .inl (.function hfn), rfl⟩)
  obtain ⟨e, he⟩ := Graph.hasEdge_iff.mp ((hasEdge_graph_iff _).mpr (.function hfn))
  obtain ⟨hnodes, hedges, hqueries⟩ := graph_conforms
  have hkind : n.kind = .function := kind_eq_of_graph hn
  have hoccurs : Occurs (Text.lowerAscii q.kind) "name" := by
    obtain ⟨kind, hfound, hadmits⟩ := hnodes f hn
    rw [hkind, Schema.nodeKinds_minimal] at hfound
    obtain rfl := Option.some.inj hfound
    exact ⟨f, _, n, hn, by rw [hkind]; decide, hadmits.required "name" List.mem_cons_self⟩
  have hknown : Text.lowerAscii q.kind ∈ Schema.minimal.nodeKinds := by decide
  refine ⟨⟨_, n, hn, hnodes f hn⟩, ⟨_, e, he, hedges f he⟩, hknown, hoccurs, hqueries q hknown ?_⟩
  intro name op value hcondition
  cases List.mem_singleton.mp hcondition
  exact hoccurs

end FileOutline

end ProgramGraph
