import ProgramGraph.Proofs.Graph.Basic
import ProgramGraph.Proofs.Outline.Names

set_option autoImplicit false

/-! # What an assembled graph is like

While a graph is assembled, every node in it bears a name of the outline and is reached from the
file or from an imported module, and every edge leaves an entity of the file: `Partial` holds
after each step. In the end the file imports its modules, so that the file reaches everything.
-/

namespace ProgramGraph

namespace FileOutline

variable {f : FileOutline}

/-- Where reaching starts during the assembly: at the file and the imported modules. -/
def IsRoot (f : FileOutline) (id : String) : Prop :=
  id = (EntityName.ofFile f.path).id ∨ ∃ e ∈ f.moduleNames, e.id = id

/-- The graph is a part of the graph of the outline. -/
structure Partial (f : FileOutline) (g : Graph) : Prop where
  sound : g.IsSound
  named : ∀ {id n}, g.node? id = some n → ∃ e ∈ f.names, n.Bears e
  plain : ∀ {id n}, g.node? id = some n → n.IsPlain
  bare : ∀ {key e}, g.edge? key = some e → e.extra = ∅
  source : ∀ {key}, g.hasEdge key = true → ∃ e ∈ f.names, e.id = key.source ∧ e.IsOf f.path
  reached : ∀ {id}, g.hasNode id = true → g.Reaches f.IsRoot id

namespace Partial

variable {g : Graph}

theorem empty (f : FileOutline) : Partial f ∅ where
  sound := Graph.isSound_empty
  named h := by cases h
  plain h := by cases h
  bare h := by cases h
  source h := by cases h
  reached h := by cases h

/-- A node is put in that is a root. -/
theorem addRoot (h : Partial f g) {n : Node} {e : EntityName} (he : e ∈ f.names) (hbears : n.Bears e)
    (hplain : n.IsPlain) (hroot : f.IsRoot n.id) : Partial f (g.addNode n) where
  sound := h.sound.addNode n
  named := by
    intro id m hm
    rcases Graph.node?_addNode_cases hm with ⟨-, rfl⟩ | hm
    · exact ⟨e, he, hbears⟩
    · exact h.named hm
  plain := by
    intro id m hm
    rcases Graph.node?_addNode_cases hm with ⟨-, rfl⟩ | hm
    · exact hplain
    · exact h.plain hm
  bare := h.bare
  source := h.source
  reached := by
    intro id hid
    -- What was reached before is reached still, and the new node is where one starts.
    rcases Graph.hasNode_addNode_iff.mp hid with rfl | hid
    · exact .root hroot
    · exact (h.reached hid).extends (.addNode g n)

/-- An edge is put in that leaves an entity of the file. -/
theorem attach (h : Partial f g) {e : Edge} (hbare : e.extra = ∅)
    (hsource : ∃ name ∈ f.names, name.id = e.source ∧ name.IsOf f.path) : Partial f (g.attach e) := by
  rcases Graph.attach_cases g e with heq | ⟨hs, ht, hjoins⟩
  · rw [heq]
    exact h
  · constructor
    case sound => exact h.sound.joins hjoins hs ht
    case named => exact fun hn => h.named ((hjoins.node? _).symm.trans hn)
    case plain => exact fun hn => h.plain ((hjoins.node? _).symm.trans hn)
    case bare =>
      intro key d hd
      rcases hjoins.edge?_cases hd with ⟨-, rfl⟩ | hd
      · exact hbare
      · exact h.bare hd
    case source =>
      intro key hkey
      rcases hjoins.hasEdge_iff.mp hkey with rfl | hkey
      · exact hsource
      · exact h.source hkey
    case reached =>
      intro id hid
      rw [hjoins.hasNode] at hid
      exact (h.reached hid).extends (.joins hjoins)

/-- A node is put in together with an edge that reaches it. -/
theorem grow (h : Partial f g) {n : Node} {name : EntityName} {e : Edge} (hname : name ∈ f.names)
    (hbears : n.Bears name) (hplain : n.IsPlain) (htarget : e.target = n.id)
    (hthere : g.hasNode e.source = true) (hbare : e.extra = ∅)
    (hsource : ∃ name ∈ f.names, name.id = e.source ∧ name.IsOf f.path) :
    Partial f ((g.addNode n).attach e) := by
  have hs : (g.addNode n).hasNode e.source = true := (Graph.Extends.addNode g n).hasNode hthere
  have ht : (g.addNode n).hasNode e.target = true := by
    rw [htarget, Graph.hasNode_addNode, decide_eq_true rfl, Bool.true_or]
  have hjoins := Graph.joins_attach hs ht
  -- The edge changes no node, so a node is the new one or an old one.
  have hold : ∀ {id : String} {m : Node}, ((g.addNode n).attach e).node? id = some m →
      m = n ∨ g.node? id = some m := by
    intro id m hm
    rw [hjoins.node?] at hm
    exact (Graph.node?_addNode_cases hm).imp_left And.right
  constructor
  case sound => exact (h.sound.addNode n).joins hjoins hs ht
  case named =>
    intro id m hm
    rcases hold hm with rfl | hm
    · exact ⟨name, hname, hbears⟩
    · exact h.named hm
  case plain =>
    intro id m hm
    rcases hold hm with rfl | hm
    · exact hplain
    · exact h.plain hm
  case bare =>
    intro key d hd
    rcases hjoins.edge?_cases hd with ⟨-, rfl⟩ | hd
    · exact hbare
    · exact h.bare hd
  case source =>
    intro key hkey
    rcases hjoins.hasEdge_iff.mp hkey with rfl | hkey
    · exact hsource
    · exact h.source hkey
  case reached =>
    have hext : g.Extends ((g.addNode n).attach e) := (Graph.Extends.addNode g n).trans (.joins hjoins)
    intro id hid
    rw [hjoins.hasNode] at hid
    rcases Graph.hasNode_addNode_iff.mp hid with rfl | hid
    · -- The new node is reached along the edge, from a node that was reached before.
      have hedge : ((g.addNode n).attach e).hasEdge e.key = true := by
        rw [hjoins.hasEdge, decide_eq_true rfl, Bool.true_or]
      rw [← htarget]
      exact .step e.key ((h.reached hthere).extends hext) hedge
    · exact (h.reached hid).extends hext

/-- A node that may be there already is put in together with an edge that reaches it. -/
theorem ensure (h : Partial f g) {n : Node} {name : EntityName} {e : Edge} (hname : name ∈ f.names)
    (hbears : n.Bears name) (hplain : n.IsPlain) (htarget : e.target = n.id)
    (hthere : g.hasNode e.source = true) (hbare : e.extra = ∅)
    (hsource : ∃ name ∈ f.names, name.id = e.source ∧ name.IsOf f.path) :
    Partial f ((ensureNode g n).attach e) := by
  unfold ensureNode
  split
  · exact h.attach hbare hsource
  · exact h.grow hname hbears hplain htarget hthere hbare hsource

end Partial

/-! ## The skeleton -/

/-- Adds an entry in front unless one with its name was seen. -/
def addFirst (acc : List (String × ImportOutline) × Std.TreeSet String) (entry : String × ImportOutline) :
    List (String × ImportOutline) × Std.TreeSet String :=
  if acc.2.contains entry.1 then acc else (entry :: acc.1, acc.2.insert entry.1)

/-- What was gathered of the entries dealt with: for each name an entry with it. -/
structure Gathered (dealt : List (String × ImportOutline))
    (acc : List (String × ImportOutline) × Std.TreeSet String) : Prop where
  seen : ∀ name, acc.2.contains name = true ↔ ∃ i, (name, i) ∈ acc.1
  sound : ∀ entry ∈ acc.1, entry ∈ dealt
  complete : ∀ entry ∈ dealt, ∃ i, (entry.1, i) ∈ acc.1

theorem Gathered.addFirst {dealt : List (String × ImportOutline)}
    {acc : List (String × ImportOutline) × Std.TreeSet String} (h : Gathered dealt acc)
    (entry : String × ImportOutline) : Gathered (dealt ++ [entry]) (addFirst acc entry) := by
  unfold FileOutline.addFirst
  split
  · rename_i hseen
    -- The name was seen before, so the entry is dropped and stands for nothing new.
    refine ⟨h.seen, fun d hd => List.mem_append_left _ (h.sound d hd), fun d hd => ?_⟩
    rcases List.mem_append.mp hd with hd | hd
    · exact h.complete d hd
    · obtain rfl := List.mem_singleton.mp hd
      exact (h.seen d.1).mp hseen
  · refine ⟨fun name => ?_, fun d hd => ?_, fun d hd => ?_⟩
    · rw [Std.TreeSet.contains_insert, Bool.or_eq_true, h.seen, beq_iff_eq,
        Std.LawfulEqOrd.compare_eq_iff_eq]
      constructor
      · rintro (rfl | ⟨i, hi⟩)
        · exact ⟨entry.2, List.mem_cons_self⟩
        · exact ⟨i, List.mem_cons_of_mem _ hi⟩
      · rintro ⟨i, hi⟩
        rcases List.mem_cons.mp hi with rfl | hi
        · exact .inl rfl
        · exact .inr ⟨i, hi⟩
    · rcases List.mem_cons.mp hd with rfl | hd
      · exact List.mem_append_right _ (List.mem_singleton_self d)
      · exact List.mem_append_left _ (h.sound d hd)
    · rcases List.mem_append.mp hd with hd | hd
      · obtain ⟨i, hi⟩ := h.complete d hd
        exact ⟨i, List.mem_cons_of_mem _ hi⟩
      · obtain rfl := List.mem_singleton.mp hd
        exact ⟨d.2, List.mem_cons_self⟩

theorem Gathered.foldl {dealt : List (String × ImportOutline)}
    {acc : List (String × ImportOutline) × Std.TreeSet String} (h : Gathered dealt acc)
    (entries : List (String × ImportOutline)) :
    Gathered (dealt ++ entries) (entries.foldl FileOutline.addFirst acc) := by
  induction entries generalizing dealt acc with
  | nil => rwa [List.append_nil]
  | cons entry rest ih =>
      have hrest := ih (h.addFirst entry)
      rwa [List.append_assoc, List.singleton_append] at hrest

/-- The imports by the modules that they name. -/
theorem gathered_importedModules (imports : List ImportOutline) :
    ∃ seen, Gathered (imports.filterMap fun i => i.moduleName?.map (·, i))
      ((importedModules imports).reverse, seen) := by
  have hnothing : Gathered [] ([], ∅) := ⟨fun name => by simp, fun _ h => h, fun _ h => by cases h⟩
  let named := imports.filterMap fun i => i.moduleName?.map (·, i)
  refine ⟨(named.foldl addFirst ([], ∅)).2, ?_⟩
  rw [importedModules, List.reverse_reverse]
  exact hnothing.foldl named

theorem mem_filterMap_moduleName? {imports : List ImportOutline} {name : String} {i : ImportOutline} :
    (name, i) ∈ imports.filterMap (fun i => i.moduleName?.map (·, i)) ↔
      i ∈ imports ∧ i.moduleName? = some name := by
  rw [List.mem_filterMap]
  constructor
  · rintro ⟨j, hj, hname⟩
    obtain ⟨other, hother, heq⟩ := Option.map_eq_some_iff.mp hname
    obtain ⟨rfl, rfl⟩ := Prod.mk.inj heq
    exact ⟨hj, hother⟩
  · rintro ⟨hi, hname⟩
    exact ⟨i, hi, by rw [hname]; rfl⟩

/-- The modules are those that imports name. -/
theorem moduleName?_of_mem {imports : List ImportOutline} {entry : String × ImportOutline}
    (h : entry ∈ importedModules imports) : entry.2 ∈ imports ∧ entry.2.moduleName? = some entry.1 := by
  obtain ⟨seen, hall⟩ := gathered_importedModules imports
  exact mem_filterMap_moduleName?.mp (hall.sound _ (List.mem_reverse.mpr h))

theorem exists_mem_importedModules {imports : List ImportOutline} {name : String} {i : ImportOutline}
    (hi : i ∈ imports) (hname : i.moduleName? = some name) : ∃ j, (name, j) ∈ importedModules imports := by
  obtain ⟨seen, hall⟩ := gathered_importedModules imports
  obtain ⟨j, hj⟩ := hall.complete (name, i) (mem_filterMap_moduleName?.mpr ⟨hi, hname⟩)
  exact ⟨j, List.mem_reverse.mp hj⟩

/-- The identifier of the file. -/
theorem fileNode_id (f : FileOutline) : f.fileNode.id = (EntityName.ofFile f.path).id :=
  f.fileNode_bears.id

theorem mem_moduleNames {name : String} :
    ⟨.module, none, name⟩ ∈ f.moduleNames ↔ ∃ i ∈ f.imports, i.moduleName? = some name := by
  rw [moduleNames, List.mem_filterMap]
  refine exists_congr fun i => and_congr_right fun _ => ?_
  rw [Option.map_eq_some_iff]
  constructor
  · rintro ⟨other, hother, heq⟩
    rwa [← (EntityName.mk.inj heq).2.2]
  · exact fun h => ⟨name, h, rfl⟩

/-- The entity is defined in the file. -/
theorem source_of_mem_ownNames {e : EntityName} (h : e ∈ f.ownNames) :
    ∃ name ∈ f.names, name.id = e.id ∧ name.IsOf f.path :=
  ⟨e, mem_names.mpr (.inr (.inr (.inl h))), rfl, isOf_of_mem_ownNames h⟩

theorem source_of_file (f : FileOutline) :
    ∃ name ∈ f.names, name.id = f.fileNode.id ∧ name.IsOf f.path :=
  ⟨.ofFile f.path, mem_names.mpr (.inl rfl), f.fileNode_id.symm, EntityName.isOf_ofFile f.path⟩

/-- An entity of the file and its first line. -/
theorem bears_of_mem_entities {entity : Node × UInt64} (h : entity ∈ f.functionNodes ++ f.classNodes) :
    (∃ e ∈ f.ownNames, entity.1.Bears e) ∧ entity.1.IsPlain := by
  rcases List.mem_append.mp h with h | h
  · obtain ⟨fn, hfn, rfl⟩ := List.mem_map.mp h
    exact ⟨⟨_, List.mem_append_left _ (List.mem_map_of_mem hfn), functionNode_bears f.path fn⟩,
      functionNode_isPlain f.path fn⟩
  · obtain ⟨c, hc, rfl⟩ := List.mem_map.mp h
    exact ⟨⟨_, List.mem_append_right _ (List.mem_map_of_mem hc), classNode_bears f.path c⟩,
      classNode_isPlain f.path c⟩

theorem addContained_extends (fileId : String) (g : Graph) (entity : Node × UInt64) :
    g.Extends (addContained fileId g entity) :=
  (Graph.Extends.addNode g entity.1).trans (.attach _ _)

/-- The graph of the file and its modules. -/
def modulesGraph (f : FileOutline) : Graph :=
  ((∅ : Graph).addNode f.fileNode).addNodes ((importedModules f.imports).map fun (name, i) => moduleNode name i)

theorem partial_modulesGraph (f : FileOutline) : Partial f f.modulesGraph := by
  have hfile : Partial f ((∅ : Graph).addNode f.fileNode) :=
    (Partial.empty f).addRoot (mem_names.mpr (.inl rfl)) f.fileNode_bears f.fileNode_isPlain
      (.inl f.fileNode_id)
  have hmodules : ∀ (modules : List (String × ImportOutline)) (g : Graph), Partial f g →
      (∀ entry ∈ modules, ⟨.module, none, entry.1⟩ ∈ f.moduleNames) →
      Partial f (g.addNodes (modules.map fun (name, i) => moduleNode name i)) := by
    intro modules
    induction modules with
    | nil => exact fun g h _ => h
    | cons entry rest ih =>
        intro g h hnames
        have hname := hnames entry List.mem_cons_self
        have hbears := moduleNode_bears entry.1 entry.2
        exact ih _ (h.addRoot (mem_names.mpr (.inr (.inl hname))) hbears
          (moduleNode_isPlain entry.1 entry.2) (.inr ⟨_, hname, hbears.id.symm⟩))
          fun e he => hnames e (List.mem_cons_of_mem _ he)
  exact hmodules _ _ hfile fun entry hentry =>
    mem_moduleNames.mpr ⟨entry.2, moduleName?_of_mem hentry⟩

/-- The file and its modules are there. -/
theorem hasNode_modulesGraph {id : String} (h : f.IsRoot id) : f.modulesGraph.hasNode id = true := by
  refine (Graph.hasNode_addNodes ..).mpr ?_
  rcases h with rfl | ⟨e, he, rfl⟩
  · right
    rw [Graph.hasNode_addNode, ← fileNode_id, decide_eq_true rfl, Bool.true_or]
  · left
    obtain ⟨i, hi, heq⟩ := List.mem_filterMap.mp he
    obtain ⟨name, hname, rfl⟩ := Option.map_eq_some_iff.mp heq
    obtain ⟨j, hj⟩ := exists_mem_importedModules hi hname
    exact ⟨moduleNode name j, List.mem_map.mpr ⟨(name, j), hj, rfl⟩, (moduleNode_bears name j).id⟩

/-- Entities that the file contains are put in one after the other. -/
theorem Partial.addEntities {entities : List (Node × UInt64)} {g : Graph} (h : Partial f g)
    (hfile : g.hasNode f.fileNode.id = true)
    (hall : ∀ entity ∈ entities, entity ∈ f.functionNodes ++ f.classNodes) :
    Partial f (entities.foldl (addContained f.fileNode.id) g) ∧
      ∀ entity ∈ entities, (entities.foldl (addContained f.fileNode.id) g).hasNode entity.1.id = true := by
  induction entities generalizing g with
  | nil => exact ⟨h, fun _ hnone => absurd hnone List.not_mem_nil⟩
  | cons entity rest ih =>
      obtain ⟨⟨e, he, hbears⟩, hplain⟩ := bears_of_mem_entities (hall entity List.mem_cons_self)
      have hnext : Partial f (addContained f.fileNode.id g entity) :=
        h.grow (mem_names.mpr (.inr (.inr (.inl he)))) hbears hplain rfl hfile rfl f.source_of_file
      have hfile := (addContained_extends f.fileNode.id g entity).hasNode hfile
      obtain ⟨hpartial, hthere⟩ := ih hnext hfile fun d hd => hall d (List.mem_cons_of_mem _ hd)
      refine ⟨hpartial, fun d hd => ?_⟩
      rcases List.mem_cons.mp hd with rfl | hd
      · -- The entity is there at once, and what is put in later leaves it there.
        refine (Graph.Extends.foldl (addContained_extends f.fileNode.id) rest _).hasNode ?_
        show ((g.addNode d.1).attach _).hasNode d.1.id = true
        rw [Graph.hasNode_attach, Graph.hasNode_addNode, decide_eq_true rfl, Bool.true_or]
      · exact hthere d hd

/-- **The skeleton** is a part of the graph, with every entity of the file. -/
theorem partial_skeleton (f : FileOutline) :
    Partial f f.skeleton ∧ f.modulesGraph.Extends f.skeleton ∧
      ∀ e ∈ f.ownNames, f.skeleton.hasNode e.id = true := by
  have hfile : f.modulesGraph.hasNode f.fileNode.id = true :=
    hasNode_modulesGraph (.inl f.fileNode_id)
  obtain ⟨hpartial, hthere⟩ := f.partial_modulesGraph.addEntities hfile fun _ h => h
  refine ⟨hpartial, .foldl (addContained_extends f.fileNode.id) _ _, fun e he => ?_⟩
  rcases List.mem_append.mp he with he | he
  · obtain ⟨fn, hfn, rfl⟩ := List.mem_map.mp he
    rw [← (functionNode_bears f.path fn).id]
    exact hthere (functionNode f.path fn, fn.lineStart) (List.mem_append_left _ (List.mem_map_of_mem hfn))
  · obtain ⟨c, hc, rfl⟩ := List.mem_map.mp he
    rw [← (classNode_bears f.path c).id]
    exact hthere (classNode f.path c, c.lineStart) (List.mem_append_right _ (List.mem_map_of_mem hc))

/-! ## Calls, base classes and imports -/

theorem ensureNode_extends (g : Graph) (n : Node) : g.Extends (ensureNode g n) := by
  unfold ensureNode
  split
  · exact .refl g
  · exact .addNode g n

/-- The graph is a part of the graph of the outline that has the whole skeleton. -/
structure Advanced (f : FileOutline) (g : Graph) : Prop where
  part : Partial f g
  skeleton : f.skeleton.Extends g

/-- What is remembered of calls in the file is what their names stand for. -/
def Recalls (f : FileOutline) (cache : CalleeCache) : Prop :=
  ∀ (name : String) (callee : Callee), cache[(⟨f.path, name⟩ : CallKey)]? = some callee →
    callee = Callee.ofName (idsByName f.functionNodes) name

theorem recalls_empty (f : FileOutline) : f.Recalls ∅ := fun name callee h => by simp at h

theorem Recalls.resolve {cache : CalleeCache} (h : f.Recalls cache) (name : String) :
    (cache.resolve (idsByName f.functionNodes) f.path name).1 =
        Callee.ofName (idsByName f.functionNodes) name ∧
      f.Recalls (cache.resolve (idsByName f.functionNodes) f.path name).2 := by
  unfold CalleeCache.resolve
  cases hfound : cache[(⟨f.path, name⟩ : CallKey)]? with
  | some callee => exact ⟨h name callee hfound, h⟩
  | none =>
      refine ⟨rfl, fun other callee hother => ?_⟩
      rw [getElem?_inserted] at hother
      split at hother
      · rename_i hkey
        rw [(CallKey.mk.inj hkey).2]
        exact (Option.some.inj hother).symm
      · exact h other callee hother

/-- A callee outside the file is identified by where it comes from. -/
theorem callee_id {inFile : Std.TreeMap String String} {name origin : String}
    (h : (Callee.ofName inFile name).origin? = some origin) :
    (Callee.ofName inFile name).id = nodeId .function (origin ++ "." ++ name) none := by
  unfold Callee.ofName at h ⊢
  cases hfound : inFile[name]? with
  | some id => rw [hfound] at h; cases h
  | none =>
      rw [hfound] at h
      by_cases hbuiltin : Callee.isBuiltin name = true
      · simp only [hbuiltin, if_true] at h ⊢
        cases h
        rfl
      · simp only [hbuiltin] at h ⊢
        cases h
        rfl

theorem Advanced.addCall {g : Graph} {cache : CalleeCache} (h : f.Advanced g) (hcache : f.Recalls cache)
    {source : String} {call : CallOutline} (hcall : (source, call) ∈ f.callList) :
    f.Advanced (f.addCall (idsByName f.functionNodes) (g, cache) source call).1 ∧
      f.Recalls (f.addCall (idsByName f.functionNodes) (g, cache) source call).2 := by
  unfold FileOutline.addCall
  split
  · exact ⟨h, hcache⟩
  · rename_i hnamed
    obtain ⟨hcallee, hrecalls⟩ := hcache.resolve call.name
    refine ⟨?_, hrecalls⟩
    obtain ⟨fn, hfn, hmem⟩ := List.mem_flatMap.mp hcall
    obtain ⟨c, -, heq⟩ := List.mem_map.mp hmem
    obtain ⟨rfl, rfl⟩ := Prod.mk.inj heq
    have hown : ⟨.function, some f.path, fn.qualifiedName⟩ ∈ f.ownNames :=
      List.mem_append_left _ (List.mem_map_of_mem hfn)
    have hsource := source_of_mem_ownNames hown
    have hthere : g.hasNode (nodeId .function fn.qualifiedName (some f.path)) = true :=
      h.skeleton.hasNode (f.partial_skeleton.2.2 _ hown)
    show f.Advanced (Graph.attach _ _)
    rw [hcallee]
    -- A callee of the file is there already. Any other gets a placeholder that is one of the names of the file.
    cases horigin : (Callee.ofName (idsByName f.functionNodes) c.name).origin? with
    | none => exact ⟨h.part.attach rfl hsource, h.skeleton.trans (.attach _ _)⟩
    | some origin =>
        have hname : ⟨.function, none, origin ++ "." ++ c.name⟩ ∈ f.calleeNames :=
          List.mem_filterMap.mpr ⟨_, List.mem_filter.mpr ⟨hcall, by simpa using hnamed⟩, by rw [horigin]; rfl⟩
        exact ⟨h.part.ensure (mem_names.mpr (.inr (.inr (.inr (.inl hname)))))
            (calleePlaceholder_bears (callee_id horigin)) (calleePlaceholder_isPlain _ _ _) rfl hthere rfl hsource,
          h.skeleton.trans ((ensureNode_extends _ _).trans (.attach _ _))⟩

/-- Of several nodes with one name the last counts. -/
theorem getElem?_idsByName (nodes : List (Node × UInt64)) (name : String) :
    (idsByName nodes)[name]? = (nodes.reverse.find? fun entity => entity.1.name == name).map (·.1.id) := by
  have hfold : ∀ (nodes : List (Node × UInt64)) (acc : Std.TreeMap String String),
      (nodes.foldl (fun acc entity => acc.insert entity.1.name entity.1.id) acc)[name]? =
        ((nodes.reverse.find? fun entity => entity.1.name == name).map (·.1.id)).or acc[name]? := by
    intro nodes
    induction nodes with
    | nil => exact fun acc => rfl
    | cons entity rest ih =>
        intro acc
        rw [List.foldl_cons, ih, List.reverse_cons, List.find?_append, getElem?_inserted]
        -- A later node of the name is found first.
        cases rest.reverse.find? fun entity => entity.1.name == name with
        | some found => rfl
        | none =>
            by_cases hname : name = entity.1.name
            · simp [hname]
            · have hne : (entity.1.name == name) = false := beq_false_of_ne (Ne.symm hname)
              simp [hname, hne]
  exact (hfold nodes ∅).trans (by simp)

theorem exists_of_idsByName {nodes : List (Node × UInt64)} {name id : String}
    (h : (idsByName nodes)[name]? = some id) : ∃ entity ∈ nodes, entity.1.id = id := by
  rw [getElem?_idsByName, Option.map_eq_some_iff] at h
  obtain ⟨entity, hfound, hid⟩ := h
  exact ⟨entity, List.mem_reverse.mp (List.mem_of_find?_eq_some hfound), hid⟩

theorem Advanced.addBase {g : Graph} (h : f.Advanced g) {derivation : String × String}
    (hbase : derivation ∈ f.baseList) :
    f.Advanced (f.addBase (idsByName f.classNodes) g derivation) := by
  obtain ⟨c, hc, hmem⟩ := List.mem_flatMap.mp hbase
  obtain ⟨base, -, rfl⟩ := List.mem_map.mp hmem
  have hown : ⟨.classDef, some f.path, c.qualifiedName⟩ ∈ f.ownNames :=
    List.mem_append_right _ (List.mem_map_of_mem hc)
  have hid := (classNode_bears f.path c).id
  have hsource := source_of_mem_ownNames hown
  rw [← hid] at hsource
  have hthere : g.hasNode (classNode f.path c).id = true := by
    rw [hid]
    exact h.skeleton.hasNode (f.partial_skeleton.2.2 _ hown)
  show f.Advanced (Graph.attach _ _)
  refine ⟨?_, h.skeleton.trans ((ensureNode_extends _ _).trans (.attach _ _))⟩
  cases hfound : (idsByName f.classNodes)[base]? with
  | some id =>
      -- A class of the file has its node already.
      obtain ⟨entity, hentity, rfl⟩ := exists_of_idsByName hfound
      obtain ⟨d, hd, rfl⟩ := List.mem_map.mp hentity
      have hold : g.hasNode (classNode f.path d).id = true := by
        rw [(classNode_bears f.path d).id]
        exact h.skeleton.hasNode (f.partial_skeleton.2.2 _ (List.mem_append_right _ (List.mem_map_of_mem hd)))
      have hsame : ensureNode g (basePlaceholder (classNode f.path d).id base) = g := if_pos hold
      rw [Option.getD_some, hsame]
      exact h.part.attach rfl hsource
  | none =>
      have hname : ⟨.classDef, some f.path, base⟩ ∈ f.baseNames :=
        List.mem_map.mpr ⟨_, List.mem_filter.mpr ⟨hbase, by simp [hfound]⟩, rfl⟩
      rw [Option.getD_none]
      exact h.part.ensure (mem_names.mpr (.inr (.inr (.inr (.inr hname))))) (basePlaceholder_bears rfl)
        (basePlaceholder_isPlain _ _) rfl hthere rfl hsource

theorem addImport_extends (f : FileOutline) (g : Graph) (i : ImportOutline) :
    g.Extends (f.addImport g i) := by
  unfold addImport
  split
  · exact .attach _ _
  · exact .refl g

theorem Advanced.addImport {g : Graph} (h : f.Advanced g) (i : ImportOutline) :
    f.Advanced (f.addImport g i) := by
  refine ⟨?_, h.skeleton.trans (f.addImport_extends g i)⟩
  unfold FileOutline.addImport
  split
  · exact h.part.attach rfl f.source_of_file
  · exact h.part

/-- A root is there in every graph that has the skeleton. -/
theorem Advanced.hasNode_root {g : Graph} (h : f.Advanced g) {id : String} (hroot : f.IsRoot id) :
    g.hasNode id = true :=
  h.skeleton.hasNode (f.partial_skeleton.2.1.hasNode (hasNode_modulesGraph hroot))

/-- After its imports the file reaches its modules. -/
theorem Advanced.imports {g : Graph} (h : f.Advanced g) :
    f.Advanced (f.imports.foldl f.addImport g) ∧
      ∀ i ∈ f.imports, ∀ name, i.moduleName? = some name →
        (f.imports.foldl f.addImport g).hasEdge (importEdge f.fileNode.id name i).key = true := by
  have hfold : ∀ (imports : List ImportOutline) (g : Graph), f.Advanced g →
      (∀ i ∈ imports, i ∈ f.imports) →
      f.Advanced (imports.foldl f.addImport g) ∧
        ∀ i ∈ imports, ∀ name, i.moduleName? = some name →
          (imports.foldl f.addImport g).hasEdge (importEdge f.fileNode.id name i).key = true := by
    intro imports
    induction imports with
    | nil => exact fun g h _ => ⟨h, fun _ hnone => by cases hnone⟩
    | cons i rest ih =>
        intro g h hall
        obtain ⟨hadvanced, hedges⟩ := ih _ (h.addImport i) fun j hj => hall j (List.mem_cons_of_mem _ hj)
        refine ⟨hadvanced, fun j hj name hname => ?_⟩
        rcases List.mem_cons.mp hj with rfl | hj
        · -- The edge is put in here, and the imports that follow leave it where it is.
          refine (Graph.Extends.foldl f.addImport_extends rest _).hasEdge ?_
          have hs : g.hasNode f.fileNode.id = true := h.hasNode_root (.inl f.fileNode_id)
          have ht : g.hasNode (nodeId .module name none) = true :=
            h.hasNode_root (.inr ⟨_, mem_moduleNames.mpr ⟨j, hall j List.mem_cons_self, hname⟩, rfl⟩)
          have hjoins := Graph.joins_attach (e := importEdge f.fileNode.id name j) hs ht
          rw [FileOutline.addImport, hname, hjoins.hasEdge, decide_eq_true rfl, Bool.true_or]
        · exact hedges j hj name hname
  exact hfold f.imports g h fun _ hi => hi

/-- Before the imports the graph is a part of the whole. -/
theorem advanced_withBases (f : FileOutline) :
    f.Advanced (f.baseList.foldl (f.addBase (idsByName f.classNodes))
      (f.callList.foldl (fun acc (call : String × CallOutline) =>
        f.addCall (idsByName f.functionNodes) acc call.1 call.2) (f.skeleton, ∅)).1) := by
  have hcalls : ∀ (calls : List (String × CallOutline)) (acc : Graph × CalleeCache),
      f.Advanced acc.1 → f.Recalls acc.2 → (∀ call ∈ calls, call ∈ f.callList) →
      f.Advanced (calls.foldl (fun acc (call : String × CallOutline) =>
        f.addCall (idsByName f.functionNodes) acc call.1 call.2) acc).1 := by
    intro calls
    induction calls with
    | nil => exact fun acc h _ _ => h
    | cons call rest ih =>
        intro acc h hcache hall
        obtain ⟨hnext, hrecalls⟩ := h.addCall hcache (hall call List.mem_cons_self)
        exact ih _ hnext hrecalls fun d hd => hall d (List.mem_cons_of_mem _ hd)
  -- The bases are dealt with behind the calls, on whatever graph those left.
  have hbases : ∀ (bases : List (String × String)) (g : Graph), f.Advanced g →
      (∀ base ∈ bases, base ∈ f.baseList) →
      f.Advanced (bases.foldl (f.addBase (idsByName f.classNodes)) g) := by
    intro bases
    induction bases with
    | nil => exact fun g h _ => h
    | cons base rest ih =>
        exact fun g h hall => ih _ (h.addBase (hall base List.mem_cons_self)) fun d hd =>
          hall d (List.mem_cons_of_mem _ hd)
  have hskeleton : f.Advanced f.skeleton := ⟨f.partial_skeleton.1, .refl _⟩
  exact hbases _ _ (hcalls _ (f.skeleton, ∅) hskeleton f.recalls_empty fun _ h => h) fun _ h => h

end FileOutline

/-! ## The whole graph -/

/-- The graph is like that of the file at a path, with nodes for known entities: each belongs to
the file or to none, the file reaches them all, and edges leave entities of the file only. -/
structure Graph.IsOfFile (known : EntityName → Prop) (path : String) (g : Graph) : Prop where
  sound : g.IsSound
  named : ∀ {id n}, g.node? id = some n → ∃ e, known e ∧ n.Bears e ∧ ∀ q, e.IsOf q → q = path
  plain : ∀ {id n}, g.node? id = some n → n.IsPlain
  bare : ∀ {key e}, g.edge? key = some e → e.extra = ∅
  source : ∀ {key}, g.hasEdge key = true → ∃ e, known e ∧ e.id = key.source ∧ e.IsOf path
  file : ∀ {id}, g.hasNode id = true → g.hasNode (EntityName.ofFile path).id = true
  reached : ∀ {id}, g.hasNode id = true → g.Reaches (· = (EntityName.ofFile path).id) id

/-- So is the graph without nodes. -/
theorem Graph.isOfFile_empty (known : EntityName → Prop) (path : String) : IsOfFile known path ∅ where
  sound := isSound_empty
  named h := by cases h
  plain h := by cases h
  bare h := by cases h
  source h := by cases h
  file h := by cases h
  reached h := by cases h

/-- **The graph of an outline** is like that of its file. -/
theorem FileOutline.graph_isOfFile (f : FileOutline) : f.graph.IsOfFile (· ∈ f.names) f.path := by
  obtain ⟨hadvanced, himports⟩ := f.advanced_withBases.imports
  have hgraph : f.Advanced f.graph := hadvanced
  constructor
  case sound => exact hgraph.part.sound
  case named =>
    intro id n hn
    obtain ⟨e, he, hbears⟩ := hgraph.part.named hn
    exact ⟨e, he, hbears, fun q hq => path_eq_of_isOf he hq⟩
  case plain => exact hgraph.part.plain
  case bare => exact hgraph.part.bare
  case source => exact hgraph.part.source
  case file => exact fun _ => hgraph.hasNode_root (.inl rfl)
  case reached =>
    intro id hid
    -- Once the imports are in, the file reaches its modules, and so what they reach.
    refine (hgraph.part.reached hid).trans fun r hr => ?_
    rcases hr with rfl | ⟨e, he, rfl⟩
    · exact .root rfl
    · obtain ⟨i, hi, heq⟩ := List.mem_filterMap.mp he
      obtain ⟨name, hname, rfl⟩ := Option.map_eq_some_iff.mp heq
      exact .step (importEdge f.fileNode.id name i).key (.root f.fileNode_id)
        (himports i hi name hname)

end ProgramGraph
