import ProgramGraph.Proofs.Delta.Stored
import ProgramGraph.Proofs.Sync.Fragment

set_option autoImplicit false

/-! # A content in step with files

A content is in step with the graphs of some files if its edges are those of the graphs, if it has
their nodes, and if it has no other nodes that belong to a file. Nodes that belong to none may stay
behind. The difference between the fragment of one file and another graph of the file, applied to
the content, leads to a content that is in step with the other graph and with those of all other
files (`InStep.after`).

Names are told apart by their identifiers: those that outlines make, those of the files, and those
that are asked for to find out whether an entity belongs to a file.
-/

namespace ProgramGraph

/-- The names that are met, given those that are made and the paths of the files. -/
inductive EntityName.Met (made : EntityName → Prop) (paths : String → Prop) : EntityName → Prop where
  | made {e : EntityName} (h : made e) : Met made paths e
  /-- The file at a path is looked up. -/
  | file {path : String} (h : paths path) : Met made paths (.ofFile path)
  /-- It is asked whether an entity belongs to the file at a path. -/
  | asked {e : EntityName} {path : String} (h : made e) (kind : e.kind ≠ .file) (hpath : paths path) :
      Met made paths ⟨e.kind, some path, e.name⟩

/-- Met names are told apart by their identifiers. -/
def EntityName.Distinct (made : EntityName → Prop) (paths : String → Prop) : Prop :=
  ∀ a b, Met made paths a → Met made paths b → a.id = b.id → a = b

/-- The names that are met, as a list. -/
def EntityName.metNames (made : List EntityName) (paths : List String) : List EntityName :=
  made ++ paths.map ofFile ++ made.flatMap fun e => paths.map fun path => ⟨e.kind, some path, e.name⟩

/-- Whether names are told apart can be found out for a list of names. -/
theorem EntityName.Distinct.of_metNames {names : List EntityName} {texts : List String}
    (h : ∀ a ∈ metNames names texts, ∀ b ∈ metNames names texts, a.id = b.id → a = b) :
    Distinct (· ∈ names) (· ∈ texts) := by
  have hmet : ∀ {e}, Met (· ∈ names) (· ∈ texts) e → e ∈ metNames names texts := by
    intro e he
    rw [metNames, List.mem_append, List.mem_append]
    cases he with
    | made h => exact .inl (.inl h)
    | file h => exact .inl (.inr (List.mem_map_of_mem h))
    | asked h _ hpath => exact .inr (List.mem_flatMap.mpr ⟨_, h, List.mem_map.mpr ⟨_, hpath, rfl⟩⟩)
  exact fun a b ha hb => h a (hmet ha) b (hmet hb)

/-- The content is in step with the graphs of the files. -/
structure InStep (made : EntityName → Prop) (current : String → Graph) (c : Content) : Prop where
  ofFile : ∀ path, (current path).IsOfFile made path
  named : ∀ {id n}, c.node? id = some n → ∃ e, made e ∧ n.Bears e
  nodes : ∀ {path id}, (current path).hasNode id = true → c.hasNode id = true
  edges : ∀ {key}, c.hasEdge key = true ↔ ∃ path, (current path).hasEdge key = true
  owned : ∀ {path e}, made e → e.IsOf path → c.hasNode e.id = true → (current path).hasNode e.id = true

/-- The graphs with another one for a file. -/
def setGraph (current : String → Graph) (path : String) (g : Graph) (other : String) : Graph :=
  if other = path then g else current other

@[simp] theorem setGraph_self (current : String → Graph) (path : String) (g : Graph) :
    setGraph current path g path = g := if_pos rfl

theorem setGraph_of_ne (current : String → Graph) {path other : String} (g : Graph) (h : other ≠ path) :
    setGraph current path g other = current other := if_neg h

theorem Node.Bears.reread {n : Node} {e : EntityName} (h : n.Bears e) : n.reread.Bears e :=
  ⟨h.id, h.kind, h.name⟩

/-- Unless it is a file, a node is owned if its identifier says so. -/
theorem Node.isOwnedBy_eq {n : Node} (hkind : n.kind ≠ .file) (path : String) :
    n.isOwnedBy path = (n.id == nodeId n.kind n.qualifiedName (some path)) := by
  unfold Node.isOwnedBy
  cases hn : n.kind with
  | file => exact absurd hn hkind
  | _ => rfl

/-- A node that stands for an entity of a file is owned by the file. -/
theorem Node.Bears.isOwnedBy {n : Node} {e : EntityName} (h : n.Bears e) {path : String} (hof : e.IsOf path) :
    n.isOwnedBy path = true := by
  by_cases hkind : e.kind = .file
  · have hnode : n.kind = .file := h.kind.trans hkind
    rw [EntityName.IsOf, if_pos hkind] at hof
    simp [Node.isOwnedBy, hnode, h.name, hof]
  · rw [EntityName.IsOf, if_neg hkind] at hof
    rw [isOwnedBy_eq fun hnode => hkind (h.kind.symm.trans hnode), beq_iff_eq, h.id, h.kind, h.name, ← hof]
    rfl

section

variable {made : EntityName → Prop} {paths : String → Prop} {current : String → Graph} {c : Content}
  {path : String}

/-- **The question whether a node is owned** is one about its name. -/
theorem EntityName.Distinct.isOwnedBy_iff (distinct : Distinct made paths) {n : Node} {e : EntityName}
    (hbears : n.Bears e) (he : made e) (hpath : paths path) :
    n.isOwnedBy path = true ↔ e.IsOf path := by
  refine ⟨fun howned => ?_, hbears.isOwnedBy⟩
  by_cases hkind : e.kind = .file
  · have hnode : n.kind = .file := hbears.kind.trans hkind
    simpa [Node.isOwnedBy, hnode, IsOf, hkind, hbears.name] using howned
  · rw [Node.isOwnedBy_eq fun hnode => hkind (hbears.kind.symm.trans hnode), beq_iff_eq, hbears.id, hbears.kind,
      hbears.name] at howned
    have heq := distinct e ⟨e.kind, some path, e.name⟩ (.made he) (.asked he hkind hpath) howned
    rw [IsOf, if_neg hkind, heq]

/-- An edge is in the graph of one file at most. -/
theorem Graph.IsOfFile.path_eq {g g' : Graph} {path' : String} (h : g.IsOfFile made path)
    (h' : g'.IsOfFile made path') (distinct : EntityName.Distinct made paths) {key : EdgeKey}
    (hkey : g.hasEdge key = true) (hkey' : g'.hasEdge key = true) : path = path' := by
  obtain ⟨e, he, hid, hof⟩ := h.source hkey
  obtain ⟨e', he', hid', hof'⟩ := h'.source hkey'
  obtain rfl := distinct e e' (.made he) (.made he') (hid.trans hid'.symm)
  exact hof.unique hof'

namespace InStep

/-- Without files there is nothing to be in step with. -/
theorem empty (made : EntityName → Prop) : InStep made (fun _ => ∅) ∅ where
  ofFile path := Graph.isOfFile_empty made path
  named h := by cases h
  nodes h := by cases h
  edges := by
    intro key
    constructor
    · intro h
      cases h
    · rintro ⟨_, h⟩
      cases h
  owned _ _ h := by cases h

/-- A stored node with the identifier of a made name bears the name. -/
theorem bears (h : InStep made current c) (distinct : EntityName.Distinct made paths) {e : EntityName}
    (he : made e) {n : Node} (hn : c.node? e.id = some n) : n.Bears e := by
  obtain ⟨e', he', hbears⟩ := h.named hn
  have hid : e'.id = e.id := hbears.id.symm.trans (c.id_eq hn)
  exact distinct e' e (.made he') (.made he) hid ▸ hbears

/-- A stored node that a file owns is in the graph of no other file. -/
theorem path_eq (h : InStep made current c) (distinct : EntityName.Distinct made paths)
    (hpath : paths path) {other id : String} {n : Node} (hn : c.node? id = some n)
    (howned : n.isOwnedBy path = true) (hnode : (current other).hasNode id = true) : path = other := by
  rw [Graph.hasNode_eq, Option.isSome_iff_exists] at hnode
  obtain ⟨m, hm⟩ := hnode
  obtain ⟨e, he, hbears, hof⟩ := (h.ofFile other).named hm
  have hid : e.id = id := hbears.id.symm.trans ((h.ofFile other).sound.id_eq hm)
  have hn := h.bears distinct he (hid.symm ▸ hn)
  exact hof path ((distinct.isOwnedBy_iff hn he hpath).mp howned)

/-- **The content covers** the graph of each file. -/
theorem covers (h : InStep made current c) (distinct : EntityName.Distinct made paths)
    (hpath : paths path) : c.Covers path (current path) where
  nodes := h.nodes
  edges hkey := h.edges.mpr ⟨path, hkey⟩
  owned := by
    intro key n hkey hn
    obtain ⟨e, he, hid, hof⟩ := (h.ofFile path).source hkey
    exact (distinct.isOwnedBy_iff (h.bears distinct he (hid.symm ▸ hn)) he hpath).mpr hof
  closed := by
    intro key n hkey hn howned
    obtain ⟨other, hother⟩ := h.edges.mp hkey
    have hsource := (h.ofFile other).sound.source hother
    obtain rfl := h.path_eq distinct hpath hn howned hsource
    exact hother

/-- A stored node of the file is a node of its graph. -/
theorem file (h : InStep made current c) (distinct : EntityName.Distinct made paths) (hpath : paths path)
    {n : Node} (hn : c.node? (EntityName.ofFile path).id = some n) :
    (current path).hasNode (EntityName.ofFile path).id = true ∧ n.isOwnedBy path = true := by
  obtain ⟨e, he, hbears⟩ := h.named hn
  have hid : e.id = (EntityName.ofFile path).id := hbears.id.symm.trans (c.id_eq hn)
  obtain rfl := distinct e (.ofFile path) (.made he) (.file hpath) hid
  exact ⟨h.owned he (EntityName.isOf_ofFile path) (by rw [Content.hasNode, hn]; rfl),
    (distinct.isOwnedBy_iff hbears he hpath).mpr (EntityName.isOf_ofFile path)⟩

/-! ## One step

The content `c` is in step, `old` is the fragment of the file at `path`, and `new` is another
graph of the file. -/

variable {old new : Graph}

/-- The change set deletes single edges only. -/
theorem exact_of_mem (hold : Store.Restores c (current path) old) :
    ∀ s ∈ ((Delta.between old new).sparing old path).deletedEdges.toList, ∃ key, s = EdgeSelector.exact key :=
  Delta.exact_of_mem_deletedEdges hold.sound

/-- What is deleted is a stored node of the old graph that the file owns and the new graph lacks. -/
theorem mem_deletedNodes (hold : Store.Restores c (current path) old) {id : String} :
    id ∈ ((Delta.between old new).sparing old path).deletedNodes.toList ↔
      ∃ n, c.node? id = some n ∧ (current path).hasNode id = true ∧ new.hasNode id = false ∧
        n.isOwnedBy path = true := by
  rw [Delta.mem_deletedNodes_sparing hold.sound]
  refine exists_congr fun n => ?_
  rw [hold.node?]
  cases (current path).hasNode id <;> simp

/-- **A node of the new graph** is stored with its content. -/
theorem node?_after_some (h : InStep made current c) (policy : Policy) (hnew : new.IsOfFile made path)
    (hold : Store.Restores c (current path) old) {id : String} {n : Node} (hn : new.node? id = some n) :
    ∃ m, (c.after policy ((Delta.between old new).sparing old path).operations).node? id = some m ∧
      m.sameContent n = true ∧ ∃ e, made e ∧ m.Bears e := by
  obtain rfl := hnew.sound.id_eq hn
  have hunique : ∀ m ∈ ((Delta.between old new).sparing old path).incomingNodes, m.id = n.id → m = n := by
    intro m hm hid
    have hfound := ((Delta.mem_incomingNodes hnew.sound).mp hm).1
    rw [hid, hn] at hfound
    exact (Option.some.inj hfound).symm
  by_cases hin : n ∈ ((Delta.between old new).sparing old path).incomingNodes
  · obtain ⟨e, he, hbears, -⟩ := hnew.named hn
    exact ⟨n.reread, Delta.node?_after_of_mem hin hunique, (hnew.plain hn).sameContent_reread, e, he,
      hbears.reread⟩
  · -- The node does not come, so it was there with the same content.
    have hstays : ∃ before, old.node? n.id = some before ∧ before.sameContent n = true := by
      rw [Delta.incomingNodes_sparing, Delta.mem_incomingNodes hnew.sound] at hin
      cases hbefore : old.node? n.id with
      | none => simp [hn, hbefore] at hin
      | some before => exact ⟨before, rfl, by simpa [hn, hbefore] using hin⟩
    obtain ⟨before, hbefore, hsame⟩ := hstays
    have hstored : c.node? n.id = some before := by
      rw [hold.node?] at hbefore
      split at hbefore
      · exact hbefore
      · cases hbefore
    have hkept : n.id ∉ ((Delta.between old new).sparing old path).deletedNodes.toList := by
      rw [mem_deletedNodes hold]
      rintro ⟨-, -, -, hgone, -⟩
      rw [Graph.hasNode_eq, hn] at hgone
      cases hgone
    refine ⟨before, ?_, hsame, h.named hstored⟩
    rw [Delta.node?_after_of_ne (exact_of_mem hold) fun m hm hid => hin (hunique m hm hid ▸ hm),
      if_neg hkept, hstored]

/-- **Another node** stays unless the file owned it. -/
theorem node?_after_none (policy : Policy) (hnew : new.IsOfFile made path)
    (hold : Store.Restores c (current path) old) {id : String} (hn : new.node? id = none) (m : Node) :
    (c.after policy ((Delta.between old new).sparing old path).operations).node? id = some m ↔
      c.node? id = some m ∧ ¬((current path).hasNode id = true ∧ m.isOwnedBy path = true) := by
  have hother : ∀ k ∈ ((Delta.between old new).sparing old path).incomingNodes, k.id ≠ id := by
    rintro k hk rfl
    have hfound := ((Delta.mem_incomingNodes hnew.sound).mp hk).1
    rw [hn] at hfound
    cases hfound
  have hlacks : new.hasNode id = false := by rw [Graph.hasNode_eq, hn]; rfl
  rw [Delta.node?_after_of_ne (exact_of_mem hold) hother]
  split
  · rename_i hgone
    obtain ⟨k, hk, hnode, -, howned⟩ := (mem_deletedNodes hold).mp hgone
    constructor
    · intro hnone
      cases hnone
    · rintro ⟨hm, hkept⟩
      obtain rfl : k = m := Option.some.inj (hk.symm.trans hm)
      exact absurd ⟨hnode, howned⟩ hkept
  · rename_i hkept
    refine ⟨fun hm => ⟨hm, fun hgone => hkept ?_⟩, And.left⟩
    exact (mem_deletedNodes hold).mpr ⟨m, hm, hgone.1, hlacks, hgone.2⟩

/-- No edge of the new graph goes with a deleted node: its ends are nodes of the new graph. -/
theorem not_taken_of_new (policy : Policy) (hnew : new.IsOfFile made path)
    (hold : Store.Restores c (current path) old) {key : EdgeKey} (hkey : new.hasEdge key = true) :
    (((Delta.between old new).sparing old path).deletedNodes.toList.any fun id => policy.takes id key) =
      false := by
  rw [List.any_eq_false]
  intro id hid htakes
  obtain ⟨-, -, -, hgone, -⟩ := (mem_deletedNodes hold).mp hid
  rcases Policy.touches_of_takes htakes with rfl | rfl
  · rw [hnew.sound.source hkey] at hgone
    cases hgone
  · rw [hnew.sound.target hkey] at hgone
    cases hgone

/-- No edge of another file goes with a deleted node: its ends are nodes of the graph of that file, and
no such node is deleted. -/
theorem not_taken_of_other (h : InStep made current c) (distinct : EntityName.Distinct made paths)
    (hpath : paths path) (policy : Policy) (hold : Store.Restores c (current path) old) {key : EdgeKey}
    (hthere : c.hasEdge key = true) (hother : (current path).hasEdge key = false) :
    (((Delta.between old new).sparing old path).deletedNodes.toList.any fun id => policy.takes id key) =
      false := by
  obtain ⟨other, hkey⟩ := h.edges.mp hthere
  rw [List.any_eq_false]
  intro id hid htakes
  obtain ⟨n, hn, -, -, howned⟩ := (mem_deletedNodes hold).mp hid
  have hnode : (current other).hasNode id = true := by
    rcases Policy.touches_of_takes htakes with rfl | rfl
    · exact (h.ofFile other).sound.source hkey
    · exact (h.ofFile other).sound.target hkey
  obtain rfl := h.path_eq distinct hpath hn howned hnode
  rw [hkey] at hother
  cases hother

/-- **The edges** are those of the new graph and those of other graphs. -/
theorem hasEdge_after (h : InStep made current c) (distinct : EntityName.Distinct made paths)
    (hpath : paths path) (policy : Policy) (hnew : new.IsOfFile made path)
    (hold : Store.Restores c (current path) old) (key : EdgeKey) :
    (c.after policy ((Delta.between old new).sparing old path).operations).hasEdge key = true ↔
      new.hasEdge key = true ∨ (c.hasEdge key = true ∧ (current path).hasEdge key = false) := by
  -- Only edges of the old graph are deleted that the new graph lacks.
  have hdeleted : ((Delta.between old new).sparing old path).deletedEdges.toList.contains (.exact key) = true ↔
      (current path).hasEdge key = true ∧ new.hasEdge key = false := by
    rw [Delta.deletedEdges_sparing, Delta.contains_deletedEdges hold.sound, hold.hasEdge]
  rw [Delta.hasEdge_after (exact_of_mem hold), Bool.or_eq_true, Delta.addedEdges_sparing,
    Delta.any_addedEdges hnew.sound, hold.hasEdge, Bool.and_eq_true, Bool.and_eq_true, Bool.not_eq_true',
    Bool.not_eq_true']
  constructor
  · rintro (⟨hthere, -⟩ | ⟨⟨hthere, hkept⟩, -⟩)
    · exact .inl hthere
    · cases hcurrent : (current path).hasEdge key with
      | false => exact .inr ⟨hthere, rfl⟩
      | true =>
          cases hlast : new.hasEdge key with
          | true => exact .inl rfl
          | false => exact absurd (hdeleted.mpr ⟨hcurrent, hlast⟩) (by rw [hkept]; simp)
  · rintro (hthere | ⟨hthere, hother⟩)
    · cases hcurrent : (current path).hasEdge key with
      | false => exact .inl ⟨hthere, rfl⟩
      | true =>
          refine .inr ⟨⟨h.edges.mpr ⟨path, hcurrent⟩, ?_⟩, not_taken_of_new policy hnew hold hthere⟩
          rw [Bool.eq_false_iff, ne_eq, hdeleted]
          rintro ⟨-, hgone⟩
          rw [hthere] at hgone
          cases hgone
    · refine .inr ⟨⟨hthere, ?_⟩, h.not_taken_of_other distinct hpath policy hold hthere hother⟩
      rw [Bool.eq_false_iff, ne_eq, hdeleted, hother]
      rintro ⟨hcurrent, -⟩
      cases hcurrent

/-- **An edge that only the new graph has** is stored as it is there. -/
theorem edge?_after_new (h : InStep made current c) (distinct : EntityName.Distinct made paths)
    (policy : Policy) (hnew : new.IsOfFile made path) (hold : Store.Restores c (current path) old)
    {key : EdgeKey} {e : Edge} (he : new.edge? key = some e) (hbefore : (current path).hasEdge key = false) :
    (c.after policy ((Delta.between old new).sparing old path).operations).edge? key = some e.reread := by
  obtain rfl := hnew.sound.key_eq he
  apply Delta.edge?_after_of_mem
  · rw [Delta.addedEdges_sparing, Delta.mem_addedEdges hnew.sound, hold.hasEdge]
    exact ⟨he, hbefore⟩
  · intro k hk hkey
    have hfound := ((Delta.mem_addedEdges hnew.sound).mp hk).1
    rw [hkey, he] at hfound
    exact (Option.some.inj hfound).symm
  · -- No other file has an edge of the new graph.
    rw [Bool.eq_false_iff]
    intro hthere
    obtain ⟨other, hother⟩ := h.edges.mp hthere
    obtain rfl := (h.ofFile other).path_eq hnew distinct hother (by rw [Graph.hasEdge_eq, he]; rfl)
    rw [hother] at hbefore
    cases hbefore

/-- **Another edge** is stored as it was, if it stays. -/
theorem edge?_after_old (policy : Policy) (hnew : new.IsOfFile made path)
    (hold : Store.Restores c (current path) old) {key : EdgeKey}
    (hthere : (c.after policy ((Delta.between old new).sparing old path).operations).hasEdge key = true)
    (hbefore : new.hasEdge key = true → (current path).hasEdge key = true) :
    (c.after policy ((Delta.between old new).sparing old path).operations).edge? key = c.edge? key := by
  apply Delta.edge?_after_of_ne _ hthere
  rintro e he rfl
  obtain ⟨hfound, hmissing⟩ := (Delta.mem_addedEdges hnew.sound).mp he
  rw [hold.hasEdge, hbefore (by rw [Graph.hasEdge_eq, hfound]; rfl)] at hmissing
  cases hmissing

/-- The nodes of the new graph are there, and those of all other files. -/
theorem hasNode_after (h : InStep made current c) (distinct : EntityName.Distinct made paths)
    (hpath : paths path) (policy : Policy) (hnew : new.IsOfFile made path)
    (hold : Store.Restores c (current path) old) {other id : String}
    (hid : (setGraph current path new other).hasNode id = true) :
    (c.after policy ((Delta.between old new).sparing old path).operations).hasNode id = true := by
  cases hlast : new.node? id with
  | some m =>
      obtain ⟨k, hk, -⟩ := h.node?_after_some policy hnew hold hlast
      rw [Content.hasNode, hk]
      rfl
  | none =>
      have hne : other ≠ path := by
        rintro rfl
        rw [setGraph_self, Graph.hasNode_eq, hlast] at hid
        cases hid
      rw [setGraph_of_ne _ _ hne] at hid
      have hthere := h.nodes hid
      rw [Content.hasNode, Option.isSome_iff_exists] at hthere
      obtain ⟨n, hn⟩ := hthere
      have hkept := (node?_after_none policy hnew hold hlast n).mpr
        ⟨hn, fun hgone => hne (h.path_eq distinct hpath hn hgone.2 hid).symm⟩
      rw [Content.hasNode, hkept]
      rfl

/-- What is there of a file is in the graph of the file. -/
theorem owned_after (h : InStep made current c) (distinct : EntityName.Distinct made paths)
    (hpath : paths path) (policy : Policy) (hnew : new.IsOfFile made path)
    (hold : Store.Restores c (current path) old) {other : String} {e : EntityName} (he : made e)
    (hof : e.IsOf other)
    (hthere : (c.after policy ((Delta.between old new).sparing old path).operations).hasNode e.id = true) :
    (setGraph current path new other).hasNode e.id = true := by
  rw [Content.hasNode, Option.isSome_iff_exists] at hthere
  obtain ⟨n, hn⟩ := hthere
  cases hlast : new.node? e.id with
  | some m =>
      -- The new graph has entities of its own file only, so this is the file.
      obtain ⟨e', he', hbears, honly⟩ := hnew.named hlast
      have hid : e'.id = e.id := hbears.id.symm.trans (hnew.sound.id_eq hlast)
      obtain rfl := distinct e' e (.made he') (.made he) hid
      obtain rfl := honly other hof
      rw [setGraph_self, Graph.hasNode_eq, hlast]
      rfl
  | none =>
      obtain ⟨hstored, hkept⟩ := (node?_after_none policy hnew hold hlast n).mp hn
      have hcurrent : (current other).hasNode e.id = true :=
        h.owned he hof (by rw [Content.hasNode, hstored]; rfl)
      by_cases heq : other = path
      · subst heq
        exact absurd ⟨hcurrent, (distinct.isOwnedBy_iff (h.bears distinct he hstored) he hpath).mpr hof⟩ hkept
      · rw [setGraph_of_ne _ _ heq]
        exact hcurrent

/-- **The difference leads to a content in step** with the new graph. -/
theorem after (h : InStep made current c) (distinct : EntityName.Distinct made paths) (hpath : paths path)
    (policy : Policy) (hnew : new.IsOfFile made path) (hold : Store.Restores c (current path) old) :
    InStep made (setGraph current path new)
      (c.after policy ((Delta.between old new).sparing old path).operations) := by
  constructor
  case ofFile =>
    intro other
    by_cases heq : other = path
    · rw [heq, setGraph_self]
      exact hnew
    · rw [setGraph_of_ne _ _ heq]
      exact h.ofFile other
  case named =>
    intro id n hn
    cases hlast : new.node? id with
    | some m =>
        obtain ⟨k, hk, -, hnamed⟩ := h.node?_after_some policy hnew hold hlast
        exact Option.some.inj (hk.symm.trans hn) ▸ hnamed
    | none => exact h.named ((node?_after_none policy hnew hold hlast n).mp hn).1
  case nodes => exact h.hasNode_after distinct hpath policy hnew hold
  case edges =>
    intro key
    rw [h.hasEdge_after distinct hpath policy hnew hold]
    constructor
    · rintro (hlast | ⟨hthere, hother⟩)
      · exact ⟨path, by rw [setGraph_self]; exact hlast⟩
      · obtain ⟨other, hkey⟩ := h.edges.mp hthere
        -- The file had no such edge, so another file has it.
        have hne : other ≠ path := by
          rintro rfl
          rw [hkey] at hother
          cases hother
        exact ⟨other, by rw [setGraph_of_ne _ _ hne]; exact hkey⟩
    · rintro ⟨other, hkey⟩
      by_cases heq : other = path
      · rw [heq, setGraph_self] at hkey
        exact .inl hkey
      · rw [setGraph_of_ne _ _ heq] at hkey
        refine .inr ⟨h.edges.mpr ⟨other, hkey⟩, ?_⟩
        cases hboth : (current path).hasEdge key with
        | false => rfl
        | true => exact absurd ((h.ofFile other).path_eq (h.ofFile path) distinct hkey hboth) heq
  case owned => exact h.owned_after distinct hpath policy hnew hold

end InStep

end

end ProgramGraph
