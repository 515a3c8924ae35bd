import ProgramGraph.Proofs.Outline.Depiction
import ProgramGraph.Proofs.Sync.Convergence

set_option autoImplicit false

/-! # What a run of calls leads to

What a store holds after a run follows from the calls that read their file: its nodes are those of the
last graphs of the files, and those of modules and callees of any outline that was read
(`Content.Reflects`). The content of a node that a file owns is that of the last graph. An edge is as it
was when it came into the graph of its file (`SyncCall.Introduces`), since a call leaves alone the edges
that the store has already.

Each part of this is kept up by a call, whatever files it deals with, and so by a run
(`Store.Reflects.processAll`).
-/

namespace ProgramGraph

/-! ## Runs -/

namespace SyncCall

/-- The graphs of the files after a call. -/
def update (readers : List OutlineReader) (current : String → Graph) (call : SyncCall) : String → Graph :=
  match call.target readers with
  | .ok g => setGraph current call.path g
  | .error _ => current

/-- The graphs of the files after some calls, from none. -/
def graphsAfter (readers : List OutlineReader) (calls : List SyncCall) : String → Graph :=
  calls.foldl (update readers) fun _ => ∅

/-- The entity is a module or a callee from outside, of an outline that was read. -/
def Shares (readers : List OutlineReader) (calls : List SyncCall) (e : EntityName) : Prop :=
  ∃ call ∈ calls, ∃ f, call.outline? readers = some f ∧ (e ∈ f.moduleNames ∨ e ∈ f.calleeNames)

/-- The edge is the one with which its key came into the graph of the file at the path, where the key
has been ever since. -/
def Introduces (readers : List OutlineReader) (calls : List SyncCall) (path : String) (key : EdgeKey)
    (d : Edge) : Prop :=
  ∃ before first after g, calls = before ++ first :: after ∧ first.path = path ∧
    first.target readers = .ok g ∧ g.edge? key = some d ∧
    (graphsAfter readers before path).hasEdge key = false ∧
    ∀ later ∈ after, later.path = path → ∀ g', later.target readers = .ok g' → g'.hasEdge key = true

variable {readers : List OutlineReader} {calls all : List SyncCall} {call : SyncCall} {path : String}

theorem graphsAfter_append (calls more : List SyncCall) :
    graphsAfter readers (calls ++ more) = more.foldl (update readers) (graphsAfter readers calls) :=
  List.foldl_append

theorem update_of_ok {g : Graph} (h : call.target readers = .ok g) (current : String → Graph) :
    update readers current call = setGraph current call.path g := by
  rw [update, h]

theorem update_of_error {failure : Failure} (h : call.target readers = .error failure)
    (current : String → Graph) : update readers current call = current := by
  rw [update, h]

/-- A file that cannot be read is not deleted, and has no outline. -/
theorem outline?_of_error {failure : Failure} (h : call.target readers = .error failure) :
    call.change.change ≠ .delete ∧ call.outline? readers = none := by
  unfold target at h
  unfold outline?
  cases hchange : call.change.change with
  | delete =>
      rw [hchange] at h
      cases h
  | create | modify =>
      rw [hchange] at h
      cases hread : OutlineReader.readWith readers call.directory call.change.path with
      | error _ => exact ⟨by decide, rfl⟩
      | ok f =>
          rw [hread] at h
          cases h

/-- An outline goes by the path of the call. -/
theorem path_of_outline? {f : FileOutline} (h : call.outline? readers = some f) : f.path = call.path := by
  unfold outline? at h
  split at h
  · cases h
  · obtain ⟨g, -, rfl⟩ := Option.map_eq_some_iff.mp h
    rfl
  · obtain ⟨g, -, rfl⟩ := Option.map_eq_some_iff.mp h
    rfl

theorem Shares.made {e : EntityName} (h : Shares readers calls e) (hcalls : ∀ call ∈ calls, call ∈ all) :
    Made readers all e := by
  obtain ⟨call, hcall, f, hf, he⟩ := h
  refine ⟨call, hcalls call hcall, f, hf, FileOutline.mem_names.mpr ?_⟩
  rcases he with he | he
  · exact .inr (.inl he)
  · exact .inr (.inr (.inr (.inl he)))

/-- What is shared belongs to no file. -/
theorem Shares.not_isOf {e : EntityName} (h : Shares readers calls e) (path : String) : ¬e.IsOf path := by
  obtain ⟨-, -, f, -, he | he⟩ := h
  · exact FileOutline.not_isOf_of_mem_moduleNames he path
  · exact FileOutline.not_isOf_of_mem_calleeNames he path

theorem Shares.append {e : EntityName} (h : Shares readers calls e) (more : List SyncCall) :
    Shares readers (calls ++ more) e := by
  obtain ⟨call, hcall, hrest⟩ := h
  exact ⟨call, List.mem_append_left _ hcall, hrest⟩

/-- What an outline names belongs to its file or is shared. -/
theorem shares_of_not_isOf {f : FileOutline} (hcall : call ∈ calls) (hf : call.outline? readers = some f)
    {e : EntityName} (he : e ∈ f.names) (hof : ¬e.IsOf f.path) : Shares readers calls e := by
  rcases FileOutline.mem_names.mp he with rfl | he | he | he | he
  · exact absurd (EntityName.isOf_ofFile f.path) hof
  · exact ⟨call, hcall, f, hf, .inl he⟩
  · exact absurd (FileOutline.isOf_of_mem_ownNames he) hof
  · exact ⟨call, hcall, f, hf, .inr he⟩
  · exact absurd (FileOutline.isOf_of_mem_baseNames he) hof

/-- An edge that was introduced is in the graph of its file. -/
theorem Introduces.hasEdge {key : EdgeKey} {d : Edge} (h : Introduces readers calls path key d) :
    (graphsAfter readers calls path).hasEdge key = true := by
  obtain ⟨before, first, after, g, rfl, rfl, hg, hd, -, hafter⟩ := h
  have hstays : ∀ (after : List SyncCall) (current : String → Graph),
      (∀ later ∈ after, later.path = first.path → ∀ g', later.target readers = .ok g' → g'.hasEdge key = true) →
      (current first.path).hasEdge key = true →
      (after.foldl (update readers) current first.path).hasEdge key = true := by
    intro after
    induction after with
    | nil => exact fun current _ h => h
    | cons later rest ih =>
        intro current hall hthere
        apply ih _ fun other hother => hall other (List.mem_cons_of_mem _ hother)
        cases htarget : later.target readers with
        | error failure =>
            rw [update_of_error htarget]
            exact hthere
        | ok g' =>
            rw [update_of_ok htarget]
            by_cases hpath : first.path = later.path
            · rw [setGraph, if_pos hpath]
              exact hall later List.mem_cons_self hpath.symm g' htarget
            · rw [setGraph_of_ne _ _ hpath]
              exact hthere
  rw [graphsAfter_append, List.foldl_cons]
  apply hstays after _ hafter
  rw [update_of_ok hg, setGraph_self, Graph.hasEdge_eq, hd]
  rfl

/-- A call introduces the edges that are in its graph for the first time. -/
theorem introduces_new {g : Graph} (htarget : call.target readers = .ok g) {key : EdgeKey} {d : Edge}
    (hd : g.edge? key = some d) (hbefore : (graphsAfter readers calls call.path).hasEdge key = false) :
    Introduces readers (calls ++ [call]) call.path key d :=
  ⟨calls, call, [], g, rfl, rfl, htarget, hd, hbefore, fun _ hnone => (nomatch hnone)⟩

/-- An edge stays introduced unless its file is read without it. -/
theorem Introduces.append {key : EdgeKey} {d : Edge} (h : Introduces readers calls path key d)
    (hkept : call.path = path → ∀ g, call.target readers = .ok g → g.hasEdge key = true) :
    Introduces readers (calls ++ [call]) path key d := by
  obtain ⟨before, first, after, g, rfl, hfirst, hg, hd, hbefore, hafter⟩ := h
  refine ⟨before, first, after ++ [call], g, by simp, hfirst, hg, hd, hbefore, fun later hlater => ?_⟩
  rcases List.mem_append.mp hlater with hlater | hlater
  · exact hafter later hlater
  · obtain rfl := List.mem_singleton.mp hlater
    exact hkept

end SyncCall

/-! ## The content -/

open SyncCall

/-- The content is what the calls made so far lead to. -/
structure Content.Reflects (readers : List OutlineReader) (all done : List SyncCall) (c : Content) : Prop where
  made : ∀ call ∈ done, call ∈ all
  inStep : InStep (Made readers all) (graphsAfter readers done) c
  /-- A graph is that of an outline, or that of a file of which nothing is known. -/
  read : ∀ path, graphsAfter readers done path = ∅ ∨
    ∃ call ∈ done, ∃ f, call.outline? readers = some f ∧ f.path = path ∧ graphsAfter readers done path = f.graph
  shared : ∀ {e}, Shares readers done e → c.hasNode e.id = true
  nodes : ∀ {id}, c.hasNode id = true →
    (∃ path, (graphsAfter readers done path).hasNode id = true) ∨ ∃ e, Shares readers done e ∧ e.id = id
  contents : ∀ {path e n m}, Made readers all e → e.IsOf path →
    (graphsAfter readers done path).node? e.id = some n → c.node? e.id = some m → m.sameContent n = true
  edges : ∀ {key e}, c.edge? key = some e → ∃ path d, Introduces readers done path key d ∧ e = d.reread

namespace Content.Reflects

variable {readers : List OutlineReader} {all done : List SyncCall} {call : SyncCall} {c : Content}

/-- Before the first call there is nothing. -/
theorem empty (readers : List OutlineReader) (all : List SyncCall) : Content.Reflects readers all [] ∅ where
  made _ h := by cases h
  inStep := .empty _
  read _ := .inl rfl
  shared := by
    rintro e ⟨call, hcall, -⟩
    cases hcall
  nodes h := by cases h
  contents _ _ h := by cases h
  edges h := by cases h

/-- With the call, too, only what is among all calls was called. -/
theorem made_append (h : c.Reflects readers all done) (hcall : call ∈ all) :
    ∀ other ∈ done ++ [call], other ∈ all := by
  intro other hother
  rcases List.mem_append.mp hother with hother | hother
  · exact h.made other hother
  · exact List.mem_singleton.mp hother ▸ hcall

/-- A graph that a call leaves alone was read before. -/
theorem read_append (h : c.Reflects readers all done) (call : SyncCall) (path : String) :
    graphsAfter readers done path = ∅ ∨ ∃ other ∈ done ++ [call], ∃ f, other.outline? readers = some f ∧
      f.path = path ∧ graphsAfter readers done path = f.graph := by
  refine (h.read path).imp_right ?_
  rintro ⟨other, hother, hrest⟩
  exact ⟨other, List.mem_append_left _ hother, hrest⟩

/-- A call that cannot read its file makes no difference. -/
theorem of_error (h : c.Reflects readers all done) (hcall : call ∈ all) {failure : Failure}
    (htarget : call.target readers = .error failure) : c.Reflects readers all (done ++ [call]) := by
  have hgraphs : graphsAfter readers (done ++ [call]) = graphsAfter readers done := by
    rw [graphsAfter_append, List.foldl_cons, update_of_error htarget, List.foldl_nil]
  constructor
  case made => exact h.made_append hcall
  case inStep =>
    rw [hgraphs]
    exact h.inStep
  case read =>
    rw [hgraphs]
    exact h.read_append call
  case shared =>
    rintro e ⟨other, hother, f, hf, he⟩
    rcases List.mem_append.mp hother with hother | hother
    · exact h.shared ⟨other, hother, f, hf, he⟩
    · rw [List.mem_singleton.mp hother, (outline?_of_error htarget).2] at hf
      cases hf
  case nodes =>
    intro id hid
    rw [hgraphs]
    refine (h.nodes hid).imp_right ?_
    rintro ⟨e, he, rfl⟩
    exact ⟨e, he.append _, rfl⟩
  case contents =>
    rw [hgraphs]
    exact h.contents
  case edges =>
    intro key e he
    obtain ⟨path, d, hd, rfl⟩ := h.edges he
    refine ⟨path, d, hd.append fun _ g hg => ?_, rfl⟩
    rw [htarget] at hg
    cases hg

/-! ### A call that reads its file -/

/-- A node that is in the graph of a file, and that the file does not own, is shared. It is left when the
file goes. -/
theorem shares_of_left (h : c.Reflects readers all done)
    (distinct : EntityName.Distinct (Made readers all) (Paths all)) {path id : String} {n : Node}
    (hpath : Paths all path) (hn : c.node? id = some n)
    (hthere : (graphsAfter readers done path).hasNode id = true) (howned : ¬n.isOwnedBy path = true) :
    ∃ e, Shares readers done e ∧ e.id = id := by
  rcases h.read path with hnone | ⟨call, hcall, f, hf, rfl, hgraph⟩
  · rw [hnone] at hthere
    cases hthere
  · rw [hgraph, Graph.hasNode_eq, Option.isSome_iff_exists] at hthere
    obtain ⟨m, hm⟩ := hthere
    obtain ⟨e, he, hbears, -⟩ := f.graph_isOfFile.named hm
    obtain rfl : e.id = id := hbears.id.symm.trans (f.graph_isOfFile.sound.id_eq hm)
    have hmade : Made readers all e := ⟨call, h.made call hcall, f, hf, he⟩
    have hnot : ¬e.IsOf f.path := fun hof =>
      howned ((distinct.isOwnedBy_iff (h.inStep.bears distinct hmade hn) hmade hpath).mpr hof)
    exact ⟨e, shares_of_not_isOf hcall hf he hnot, rfl⟩

variable {new old : Graph}

/-- What is shared stays, and what the new outline shares is there. -/
theorem hasNode_after_of_shares (h : c.Reflects readers all done)
    (distinct : EntityName.Distinct (Made readers all) (Paths all)) (hcall : call ∈ all)
    (htarget : call.target readers = .ok new)
    (hold : Store.Restores c (graphsAfter readers done call.path) old) (policy : Policy) {e : EntityName}
    (he : Shares readers (done ++ [call]) e) :
    (c.after policy ((Delta.between old new).sparing old call.path).operations).hasNode e.id = true := by
  have hnew : new.IsOfFile (Made readers all) call.path := isOfFile_target hcall htarget
  obtain ⟨other, hother, f, hf, he⟩ := he
  cases hlast : new.node? e.id with
  | some m =>
      obtain ⟨k, hk, -⟩ := h.inStep.node?_after_some policy hnew hold hlast
      rw [Content.hasNode, hk]
      rfl
  | none =>
      rcases List.mem_append.mp hother with hother | hother
      · have hshares : Shares readers done e := ⟨other, hother, f, hf, he⟩
        have hmade := hshares.made h.made
        obtain ⟨n, hn⟩ := Option.isSome_iff_exists.mp (h.shared hshares)
        -- The file does not own the node, and so it is not deleted with what the file owned.
        have hspared : ¬n.isOwnedBy call.path = true := fun howned =>
          hshares.not_isOf _ ((distinct.isOwnedBy_iff (h.inStep.bears distinct hmade hn) hmade
            ⟨call, hcall, rfl⟩).mp howned)
        rw [Content.hasNode, (InStep.node?_after_none policy hnew hold hlast n).mpr
          ⟨hn, fun hgone => hspared hgone.2⟩]
        rfl
      · -- The new graph would have the node.
        obtain rfl := List.mem_singleton.mp hother
        rcases target_cases htarget with ⟨hdelete, -⟩ | ⟨f', hf', -, rfl⟩
        · rw [outline?, hdelete] at hf
          cases hf
        · obtain rfl := Option.some.inj (hf.symm.trans hf')
          have hthere := FileOutline.hasNode_graph_of_mem he
          rw [Graph.hasNode_eq, hlast] at hthere
          cases hthere

/-- What is there afterwards is in the graph of a file, or it is shared. -/
theorem hasNode_after_cases (h : c.Reflects readers all done)
    (distinct : EntityName.Distinct (Made readers all) (Paths all)) (hcall : call ∈ all)
    (htarget : call.target readers = .ok new)
    (hold : Store.Restores c (graphsAfter readers done call.path) old) (policy : Policy) {id : String}
    (hid : (c.after policy ((Delta.between old new).sparing old call.path).operations).hasNode id = true) :
    (∃ path, (setGraph (graphsAfter readers done) call.path new path).hasNode id = true) ∨
      ∃ e, Shares readers (done ++ [call]) e ∧ e.id = id := by
  have hnew : new.IsOfFile (Made readers all) call.path := isOfFile_target hcall htarget
  cases hlast : new.node? id with
  | some m =>
      refine .inl ⟨call.path, ?_⟩
      rw [setGraph_self, Graph.hasNode_eq, hlast]
      rfl
  | none =>
      obtain ⟨n, hn⟩ := Option.isSome_iff_exists.mp hid
      obtain ⟨hstored, hkept⟩ := (InStep.node?_after_none policy hnew hold hlast n).mp hn
      rcases h.nodes (by rw [Content.hasNode, hstored]; rfl) with ⟨path, hthere⟩ | ⟨e, he, rfl⟩
      · by_cases heq : path = call.path
        · subst heq
          obtain ⟨e, he, hid⟩ := h.shares_of_left distinct ⟨call, hcall, rfl⟩ hstored hthere
            fun howned => hkept ⟨hthere, howned⟩
          exact .inr ⟨e, he.append _, hid⟩
        · exact .inl ⟨path, by rwa [setGraph_of_ne _ _ heq]⟩
      · exact .inr ⟨e, he.append _, rfl⟩

/-- The content of a node that a file owns is that of its last graph. -/
theorem sameContent_after (h : c.Reflects readers all done)
    (distinct : EntityName.Distinct (Made readers all) (Paths all)) (hcall : call ∈ all)
    (htarget : call.target readers = .ok new)
    (hold : Store.Restores c (graphsAfter readers done call.path) old) (policy : Policy) {path : String}
    {e : EntityName} {n m : Node} (he : Made readers all e) (hof : e.IsOf path)
    (hn : (setGraph (graphsAfter readers done) call.path new path).node? e.id = some n)
    (hm : (c.after policy ((Delta.between old new).sparing old call.path).operations).node? e.id = some m) :
    m.sameContent n = true := by
  have hnew : new.IsOfFile (Made readers all) call.path := isOfFile_target hcall htarget
  by_cases heq : path = call.path
  · subst heq
    rw [setGraph_self] at hn
    obtain ⟨k, hk, hsame, -⟩ := h.inStep.node?_after_some policy hnew hold hn
    obtain rfl := Option.some.inj (hk.symm.trans hm)
    exact hsame
  · rw [setGraph_of_ne _ _ heq] at hn
    cases hlast : new.node? e.id with
    | none => exact h.contents he hof hn ((InStep.node?_after_none policy hnew hold hlast m).mp hm).1
    | some k =>
        -- The new graph has no node of an entity that belongs to another file.
        obtain ⟨e', he', hbears, honly⟩ := hnew.named hlast
        obtain rfl := distinct e' e (.made he') (.made he) (hbears.id.symm.trans (hnew.sound.id_eq hlast))
        exact absurd (honly path hof) heq

/-- An edge is as it was introduced, by this call or before. -/
theorem introduces_after (h : c.Reflects readers all done)
    (distinct : EntityName.Distinct (Made readers all) (Paths all)) (hcall : call ∈ all)
    (htarget : call.target readers = .ok new)
    (hold : Store.Restores c (graphsAfter readers done call.path) old) (policy : Policy) {key : EdgeKey}
    {e : Edge}
    (he : (c.after policy ((Delta.between old new).sparing old call.path).operations).edge? key = some e) :
    ∃ path d, Introduces readers (done ++ [call]) path key d ∧ e = d.reread := by
  have hnew : new.IsOfFile (Made readers all) call.path := isOfFile_target hcall htarget
  have hthere : (c.after policy ((Delta.between old new).sparing old call.path).operations).hasEdge key = true := by
    rw [Content.hasEdge, he]
    rfl
  by_cases hfirst : new.hasEdge key = true ∧ (graphsAfter readers done call.path).hasEdge key = false
  · obtain ⟨d, hd⟩ := Graph.hasEdge_iff.mp hfirst.1
    rw [h.inStep.edge?_after_new distinct policy hnew hold hd hfirst.2] at he
    exact ⟨call.path, d, introduces_new htarget hd hfirst.2, (Option.some.inj he).symm⟩
  · have hbefore : new.hasEdge key = true → (graphsAfter readers done call.path).hasEdge key = true := by
      intro hkey
      rw [← Bool.not_eq_false]
      exact fun hnone => hfirst ⟨hkey, hnone⟩
    rw [InStep.edge?_after_old policy hnew hold hthere hbefore] at he
    obtain ⟨path, d, hd, rfl⟩ := h.edges he
    refine ⟨path, d, hd.append ?_, rfl⟩
    rintro rfl g hg
    obtain rfl := Except.ok.inj (htarget.symm.trans hg)
    rcases (h.inStep.hasEdge_after distinct ⟨call, hcall, rfl⟩ policy hnew hold key).mp hthere with
      hlast | ⟨-, hgone⟩
    · exact hlast
    · rw [hd.hasEdge] at hgone
      cases hgone

/-- **A call that reads its file** leads to what the calls including it lead to. -/
theorem after (h : c.Reflects readers all done) (distinct : EntityName.Distinct (Made readers all) (Paths all))
    (hcall : call ∈ all) (htarget : call.target readers = .ok new)
    (hold : Store.Restores c (graphsAfter readers done call.path) old) (policy : Policy) :
    (c.after policy ((Delta.between old new).sparing old call.path).operations).Reflects readers all
      (done ++ [call]) := by
  have hgraphs : graphsAfter readers (done ++ [call]) = setGraph (graphsAfter readers done) call.path new := by
    rw [graphsAfter_append, List.foldl_cons, update_of_ok htarget, List.foldl_nil]
  constructor
  case made => exact h.made_append hcall
  case inStep =>
    rw [hgraphs]
    exact h.inStep.after distinct ⟨call, hcall, rfl⟩ policy (isOfFile_target hcall htarget) hold
  case read =>
    intro path
    rw [hgraphs]
    by_cases heq : path = call.path
    · subst heq
      rw [setGraph_self]
      refine (target_cases htarget).imp (fun hdelete => hdelete.2) ?_
      rintro ⟨f, hf, hfile, rfl⟩
      exact ⟨call, List.mem_append_right _ (List.mem_singleton_self call), f, hf, hfile, rfl⟩
    · rw [setGraph_of_ne _ _ heq]
      exact h.read_append call path
  case shared => exact h.hasNode_after_of_shares distinct hcall htarget hold policy
  case nodes =>
    rw [hgraphs]
    exact h.hasNode_after_cases distinct hcall htarget hold policy
  case contents =>
    rw [hgraphs]
    exact h.sameContent_after distinct hcall htarget hold policy
  case edges => exact h.introduces_after distinct hcall htarget hold policy

end Content.Reflects

/-! ## The store -/

/-- The store carries what the calls made so far lead to. -/
def Store.Reflects (readers : List OutlineReader) (all : List SyncCall) (conv : Convention) (b : Backend)
    (done : List SyncCall) (s : Store) : Prop :=
  ∃ c, s.Carries conv b c ∧ c.Reflects readers all done

namespace Store.Reflects

variable {readers : List OutlineReader} {all done : List SyncCall} {call : SyncCall} {conv : Convention}
  {b : Backend} {s : Store}

theorem of_isFresh (fresh : s.IsFresh b) : s.Reflects readers all conv b [] := by
  cases fresh with
  | table settings => exact ⟨∅, .of_noRows conv settings, .empty readers all⟩
  | keyed stays now => exact ⟨∅, .of_noEntries conv stays now, .empty readers all⟩

theorem atMoment (h : s.Reflects readers all conv b done) (now : UInt64) :
    (s.atMoment now).Reflects readers all conv b done := by
  obtain ⟨c, hcarries, hreflects⟩ := h
  exact ⟨c, hcarries.atMoment now, hreflects⟩

/-- **A call** leads to a store that reflects it too. -/
theorem process (h : s.Reflects readers all conv b done) (agree : SyncCall.Agree readers all conv b)
    (hcall : call ∈ all) {u : Updater} (hreaders : u.readers = readers) :
    (u.process call.directory call.change s).2.1.readers = readers ∧
      (u.process call.directory call.change s).2.2.Reflects readers all conv b (done ++ [call]) := by
  obtain ⟨c, hcarries, hreflects⟩ := h
  cases htarget : call.target readers with
  | error failure =>
      rw [Updater.process_of_error agree hcall ⟨c, hcarries, hreflects.inStep⟩ htarget hreaders]
      exact ⟨(u.readers_count _).trans hreaders, c, hcarries, hreflects.of_error hcall htarget⟩
  | ok new =>
      obtain ⟨old, s', hold, hends, hafter, -⟩ := hcarries.syncFile hreflects.inStep agree hcall htarget
      rw [← hreaders] at hends
      rw [Updater.process_eq hends]
      refine ⟨(u.readers_count _).trans hreaders, _, hafter, ?_⟩
      exact hreflects.after agree.distinct hcall htarget hold b.policy

/-- A call ends well if the file is deleted or can be read. -/
theorem process_ends_iff (h : s.Reflects readers all conv b done) (agree : SyncCall.Agree readers all conv b)
    (hcall : call ∈ all) {u : Updater} (hreaders : u.readers = readers) :
    (∃ delta u' s', u.process call.directory call.change s = (.ok delta, u', s')) ↔
      ∃ g, call.target readers = .ok g := by
  obtain ⟨c, hcarries, hreflects⟩ := h
  cases htarget : call.target readers with
  | error failure =>
      rw [Updater.process_of_error agree hcall ⟨c, hcarries, hreflects.inStep⟩ htarget hreaders]
      simp
  | ok new =>
      obtain ⟨old, s', -, hends, -⟩ := hcarries.syncFile hreflects.inStep agree hcall htarget
      rw [← hreaders] at hends
      rw [Updater.process_eq hends]
      simp

/-- **A run** leads to a store that reflects it. -/
theorem processAll (h : s.Reflects readers all conv b done) (agree : SyncCall.Agree readers all conv b)
    {u : Updater} (hreaders : u.readers = readers) {calls : List SyncCall} (hcalls : ∀ call ∈ calls, call ∈ all) :
    (u.processAll s calls).1.readers = readers ∧
      (u.processAll s calls).2.Reflects readers all conv b (done ++ calls) := by
  induction calls generalizing u s done with
  | nil => exact ⟨hreaders, by rwa [List.append_nil]⟩
  | cons call rest ih =>
      obtain ⟨hreaders', hnext⟩ :=
        (h.atMoment call.now).process agree (hcalls call List.mem_cons_self) hreaders
      obtain ⟨hlast, hrest⟩ := ih hnext hreaders' fun other hother => hcalls other (List.mem_cons_of_mem _ hother)
      rw [List.append_assoc, List.singleton_append] at hrest
      exact ⟨hlast, hrest⟩

end Store.Reflects

/-- Nothing is agreed about identifiers. -/
def Convention.vacuous : Convention := ⟨fun _ => .file, fun _ => False, fun _ _ _ _ h => h.elim⟩

/-- A store of rows asks for nothing but that names are told apart. -/
theorem SyncCall.Agree.of_rows {readers : List OutlineReader} {calls : List SyncCall}
    (distinct : EntityName.Distinct (Made readers calls) (Paths calls)) :
    SyncCall.Agree readers calls .vacuous .rows :=
  ⟨distinct, .inl rfl, .inl rfl⟩

end ProgramGraph
