import ProgramGraph.Outline.Assembly
import ProgramGraph.Proofs.Node.Content

set_option autoImplicit false

/-! # The names that an outline makes

An identifier is computed from a kind, a path or none, and a qualified name: the name of an
entity. The names of an outline are those of the file, of what it defines, of the modules that it
imports, and of the callees and base classes that it does not define. An entity belongs to a file
if it is the file, or if the path of the file is a part of its name; the names of an outline belong
to its own file or to none.
-/

namespace ProgramGraph

/-- What an identifier is computed from. -/
structure EntityName where
  kind : NodeKind
  /-- The path of the file that the entity belongs to. -/
  scope : Option String
  name : String
  deriving DecidableEq

namespace EntityName

/-- The identifier. -/
def id (e : EntityName) : String := nodeId e.kind e.name e.scope

/-- The entity is the file at the path or belongs to it. -/
def IsOf (e : EntityName) (path : String) : Prop :=
  if e.kind = .file then e.name = path else e.scope = some path

/-- The name of the file at a path. -/
def ofFile (path : String) : EntityName := ⟨.file, none, path⟩

theorem isOf_ofFile (path : String) : (ofFile path).IsOf path := by simp [IsOf, ofFile]

/-- An entity belongs to one file at most. -/
theorem IsOf.unique {e : EntityName} {p q : String} (hp : e.IsOf p) (hq : e.IsOf q) : p = q := by
  unfold IsOf at hp hq
  split at hp
  · rename_i hkind
    rw [if_pos hkind] at hq
    exact hp.symm.trans hq
  · rename_i hkind
    rw [if_neg hkind] at hq
    exact Option.some.inj (hp.symm.trans hq)

end EntityName

/-- The node stands for the entity. -/
structure Node.Bears (n : Node) (e : EntityName) : Prop where
  id : n.id = e.id
  kind : n.kind = e.kind
  name : n.qualifiedName = e.name

theorem Node.Bears.withExtra {n : Node} {e : EntityName} (h : n.Bears e) (key : String) (value : Property) :
    (n.withExtra key value).Bears e where
  id := (n.withExtra_id key value).trans h.id
  kind := (n.withExtra_kind key value).trans h.kind
  name := (congrArg NodeCore.qualifiedName (n.withExtra_core key value)).trans h.name

namespace FileOutline

variable (f : FileOutline)

/-- The names of the imported modules. -/
def moduleNames : List EntityName :=
  f.imports.filterMap fun i => i.moduleName?.map fun name => ⟨.module, none, name⟩

/-- The names of the functions and classes. -/
def ownNames : List EntityName :=
  f.functions.map (fun fn => ⟨.function, some f.path, fn.qualifiedName⟩) ++
    f.classes.map fun c => ⟨.classDef, some f.path, c.qualifiedName⟩

/-- The names of the callees that the file does not define. -/
def calleeNames : List EntityName :=
  (f.callList.filter fun call => !call.2.name.isEmpty).filterMap fun call =>
    (Callee.ofName (idsByName f.functionNodes) call.2.name).origin?.map fun origin =>
      ⟨.function, none, origin ++ "." ++ call.2.name⟩

/-- The names of the base classes that the file does not define. -/
def baseNames : List EntityName :=
  (f.baseList.filter fun base => ((idsByName f.classNodes)[base.2]?).isNone).map fun base =>
    ⟨.classDef, some f.path, base.2⟩

/-- All names. -/
def names : List EntityName :=
  .ofFile f.path :: (f.moduleNames ++ f.ownNames ++ f.calleeNames ++ f.baseNames)

variable {f}

theorem mem_names {e : EntityName} :
    e ∈ f.names ↔ e = .ofFile f.path ∨ e ∈ f.moduleNames ∨ e ∈ f.ownNames ∨ e ∈ f.calleeNames ∨
      e ∈ f.baseNames := by
  simp [names]

theorem isOf_of_mem_ownNames {e : EntityName} (h : e ∈ f.ownNames) : e.IsOf f.path := by
  rcases List.mem_append.mp h with h | h
  · obtain ⟨fn, -, rfl⟩ := List.mem_map.mp h
    rfl
  · obtain ⟨c, -, rfl⟩ := List.mem_map.mp h
    rfl

theorem isOf_of_mem_baseNames {e : EntityName} (h : e ∈ f.baseNames) : e.IsOf f.path := by
  obtain ⟨base, -, rfl⟩ := List.mem_map.mp h
  rfl

theorem not_isOf_of_mem_moduleNames {e : EntityName} (h : e ∈ f.moduleNames) (path : String) :
    ¬e.IsOf path := by
  obtain ⟨i, -, hi⟩ := List.mem_filterMap.mp h
  obtain ⟨name, -, rfl⟩ := Option.map_eq_some_iff.mp hi
  intro hof
  cases (hof : (none : Option String) = some path)

theorem not_isOf_of_mem_calleeNames {e : EntityName} (h : e ∈ f.calleeNames) (path : String) :
    ¬e.IsOf path := by
  obtain ⟨call, -, hcall⟩ := List.mem_filterMap.mp h
  obtain ⟨origin, -, rfl⟩ := Option.map_eq_some_iff.mp hcall
  intro hof
  cases (hof : (none : Option String) = some path)

/-- **A name of an outline** belongs to its file or to none. -/
theorem path_eq_of_isOf {e : EntityName} (h : e ∈ f.names) {path : String} (hof : e.IsOf path) :
    path = f.path := by
  rcases mem_names.mp h with rfl | h | h | h | h
  · exact hof.unique (EntityName.isOf_ofFile f.path)
  · exact absurd hof (not_isOf_of_mem_moduleNames h path)
  · exact hof.unique (isOf_of_mem_ownNames h)
  · exact absurd hof (not_isOf_of_mem_calleeNames h path)
  · exact hof.unique (isOf_of_mem_baseNames h)

/-! ## The nodes that bear them -/

theorem fileNode_bears (f : FileOutline) : f.fileNode.Bears (.ofFile f.path) :=
  Node.Bears.withExtra (Node.Bears.withExtra ⟨rfl, rfl, rfl⟩ _ _) _ _

theorem moduleNode_bears (name : String) (i : ImportOutline) :
    (moduleNode name i).Bears ⟨.module, none, name⟩ :=
  Node.Bears.withExtra ⟨rfl, rfl, rfl⟩ _ _

theorem functionNode_bears (path : String) (fn : FunctionOutline) :
    (functionNode path fn).Bears ⟨.function, some path, fn.qualifiedName⟩ :=
  Node.Bears.withExtra (Node.Bears.withExtra (Node.Bears.withExtra ⟨rfl, rfl, rfl⟩ _ _) _ _) _ _

theorem classNode_bears (path : String) (c : ClassOutline) :
    (classNode path c).Bears ⟨.classDef, some path, c.qualifiedName⟩ :=
  Node.Bears.withExtra (Node.Bears.withExtra (Node.Bears.withExtra
    (Node.Bears.withExtra ⟨rfl, rfl, rfl⟩ _ _) _ _) _ _) _ _

theorem calleePlaceholder_bears {id name origin : String}
    (h : id = nodeId .function (origin ++ "." ++ name) none) :
    (calleePlaceholder id name origin).Bears ⟨.function, none, origin ++ "." ++ name⟩ :=
  Node.Bears.withExtra (Node.Bears.withExtra ⟨h, rfl, rfl⟩ _ _) _ _

theorem basePlaceholder_bears {id name path : String} (h : id = nodeId .classDef name (some path)) :
    (basePlaceholder id name).Bears ⟨.classDef, some path, name⟩ :=
  Node.Bears.withExtra ⟨h, rfl, rfl⟩ _ _

theorem ofOption_ne_float (s : Option String) (x : Binary64) :
    Property.ofOption .text s ≠ .float x := by
  cases s <;> simp [Property.ofOption]

theorem fileNode_isPlain (f : FileOutline) : f.fileNode.IsPlain :=
  ((Node.isPlain_ofCore _ _).withExtra _ (by simp)).withExtra _ (by simp)

theorem moduleNode_isPlain (name : String) (i : ImportOutline) : (moduleNode name i).IsPlain :=
  (Node.isPlain_ofCore _ _).withExtra _ (by simp)

theorem functionNode_isPlain (path : String) (fn : FunctionOutline) : (functionNode path fn).IsPlain :=
  (((Node.isPlain_ofCore _ _).withExtra _ (by simp)).withExtra _ (ofOption_ne_float _)).withExtra _
    (by simp)

theorem classNode_isPlain (path : String) (c : ClassOutline) : (classNode path c).IsPlain :=
  ((((Node.isPlain_ofCore _ _).withExtra _ (by simp)).withExtra _ (by simp)).withExtra _
    (ofOption_ne_float _)).withExtra _ (by simp)

theorem calleePlaceholder_isPlain (id name origin : String) : (calleePlaceholder id name origin).IsPlain :=
  ((Node.isPlain_ofCore _ _).withExtra _ (by simp)).withExtra _ (by simp)

theorem basePlaceholder_isPlain (id name : String) : (basePlaceholder id name).IsPlain :=
  (Node.isPlain_ofCore _ _).withExtra _ (by simp)

end FileOutline

end ProgramGraph
