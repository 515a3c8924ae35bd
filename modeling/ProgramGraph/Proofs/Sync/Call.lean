import ProgramGraph.Proofs.Store.Carries
import ProgramGraph.Proofs.Sync.InStep

set_option autoImplicit false

/-! # A call of an updater

A call brings the store in step with what the file says then. How it runs is written out once
(`runOn_syncFile`, `runOn_syncCall`). It fails, and changes nothing, if the file cannot be read. Otherwise the store carries afterwards what the difference between the
fragment of the file and its new graph leads to (`Store.Carries.syncFile`). The difference between
the fragment and the graph that the store is in step with is empty (`Store.Restores.isEmpty`).
-/

namespace ProgramGraph

/-! ## Calls -/

/-- A call of an updater: a change, the files as they are then, and the moment. -/
structure SyncCall where
  change : FileChange
  directory : Directory
  now : UInt64

namespace SyncCall

/-- The path of the changed file. -/
def path (call : SyncCall) : String := call.change.path.text

/-- The outline of the changed file, if it is not deleted and can be read. -/
def outline? (readers : List OutlineReader) (call : SyncCall) : Option FileOutline :=
  match call.change.change with
  | .delete => none
  | .create | .modify =>
      (OutlineReader.readWith readers call.directory call.change.path).toOption.map fun f =>
        { f with path := call.path }

/-- The graph that the file is to have: none of its nodes if it is deleted. -/
def target (readers : List OutlineReader) (call : SyncCall) : Outcome Graph :=
  match call.change.change with
  | .delete => .ok ∅
  | .create | .modify =>
      (OutlineReader.readWith readers call.directory call.change.path).map fun f =>
        { f with path := call.path : FileOutline }.graph

/-- The names that the outlines read in some calls make. -/
def Made (readers : List OutlineReader) (calls : List SyncCall) (e : EntityName) : Prop :=
  ∃ call ∈ calls, ∃ f, call.outline? readers = some f ∧ e ∈ f.names

/-- The paths of the changed files. -/
def Paths (calls : List SyncCall) (path : String) : Prop := ∃ call ∈ calls, call.path = path

/-- The made names, as a list. -/
def namesMade (readers : List OutlineReader) (calls : List SyncCall) : List EntityName :=
  calls.flatMap fun call => (call.outline? readers).elim [] FileOutline.names

theorem made_eq (readers : List OutlineReader) (calls : List SyncCall) :
    Made readers calls = (· ∈ namesMade readers calls) := by
  funext e
  rw [namesMade, List.mem_flatMap, Made]
  refine propext (exists_congr fun call => and_congr_right fun _ => ?_)
  cases call.outline? readers <;> simp

theorem paths_eq (calls : List SyncCall) : Paths calls = (· ∈ calls.map path) := by
  funext text
  simp [Paths]

end SyncCall

/-! ## What is to be changed -/

theorem Graph.IsOfFile.mono {known known' : EntityName → Prop} {path : String} {g : Graph}
    (h : g.IsOfFile known path) (hle : ∀ e, known e → known' e) : g.IsOfFile known' path where
  sound := h.sound
  named hn := by
    obtain ⟨e, he, hrest⟩ := h.named hn
    exact ⟨e, hle e he, hrest⟩
  plain := h.plain
  bare := h.bare
  source hkey := by
    obtain ⟨e, he, hrest⟩ := h.source hkey
    exact ⟨e, hle e he, hrest⟩
  file := h.file
  reached := h.reached

namespace SyncCall

variable {readers : List OutlineReader} {calls : List SyncCall} {call : SyncCall}

theorem changesOf_eq (call : SyncCall) (old : Graph) :
    changesOf readers call.directory call.change old = (call.target readers).map (Delta.between old) := by
  unfold changesOf target
  cases call.change.change with
  | delete => exact congrArg Except.ok (Delta.removing_eq_between old)
  | create | modify => cases OutlineReader.readWith readers call.directory call.change.path <;> rfl

/-- The target is the graph of the outline, or has no nodes. -/
theorem target_cases {new : Graph} (h : call.target readers = .ok new) :
    (call.change.change = .delete ∧ new = ∅) ∨
      ∃ f, call.outline? readers = some f ∧ f.path = call.path ∧ new = f.graph := by
  unfold target at h
  unfold outline?
  cases hchange : call.change.change with
  | delete =>
      rw [hchange] at h
      exact .inl ⟨rfl, (Except.ok.inj h).symm⟩
  | create | modify =>
      rw [hchange] at h
      cases hread : OutlineReader.readWith readers call.directory call.change.path with
      | error failure => simp [hread, Except.map] at h
      | ok f =>
          rw [hread] at h
          exact .inr ⟨_, rfl, rfl, (Except.ok.inj h).symm⟩

theorem isOfFile_target (hcall : call ∈ calls) {new : Graph} (h : call.target readers = .ok new) :
    new.IsOfFile (Made readers calls) call.path := by
  rcases target_cases h with ⟨-, rfl⟩ | ⟨f, hf, hpath, rfl⟩
  · exact Graph.isOfFile_empty _ _
  · rw [← hpath]
    exact f.graph_isOfFile.mono fun e he => ⟨call, hcall, f, hf, he⟩

theorem fits_target {new : Graph} (h : call.target readers = .ok new)
    (hfits : ∀ f, call.outline? readers = some f → f.graph.Fits) : new.Fits := by
  rcases target_cases h with ⟨-, rfl⟩ | ⟨f, hf, -, rfl⟩
  · exact ⟨fun _ h => (nomatch h), fun _ h => (nomatch h)⟩
  · exact hfits f hf

end SyncCall

/-- Whether the identifiers of names joined by a colon can be taken apart. -/
theorem Unambiguous.of_names {names : List EntityName}
    (h : ∀ a ∈ names, ∀ b ∈ names, ∀ c ∈ names, ∀ d ∈ names,
      a.id ++ ":" ++ b.id = c.id ++ ":" ++ d.id → a.id = c.id ∧ b.id = d.id) :
    Unambiguous fun id => ∃ e, e ∈ names ∧ e.id = id := by
  rintro _ _ _ _ ⟨a, ha, rfl⟩ ⟨b, hb, rfl⟩ ⟨c, hc, rfl⟩ ⟨d, hd, rfl⟩
  exact h a ha b hb c hc d hd

/-- What can be agreed about identifiers if names are told apart by them. -/
theorem EntityName.Distinct.exists_convention {made : EntityName → Prop} {paths : String → Prop}
    (distinct : Distinct made paths) (unambiguous : Unambiguous fun id => ∃ e, made e ∧ e.id = id) :
    ∃ conv : Convention, ∀ e, made e → conv.kindOf e.id = e.kind ∧ conv.used e.id := by
  classical
  refine ⟨⟨fun id => if h : ∃ e, made e ∧ e.id = id then h.choose.kind else .file, _, unambiguous⟩,
    fun e he => ⟨?_, e, he, rfl⟩⟩
  have h : ∃ e', made e' ∧ e'.id = e.id := ⟨e, he, rfl⟩
  show (if h : ∃ e', made e' ∧ e'.id = e.id then h.choose.kind else .file) = e.kind
  rw [dif_pos h, distinct h.choose e (.made h.choose_spec.1) (.made he) h.choose_spec.2]

section

variable {made : EntityName → Prop} {paths : String → Prop} {current : String → Graph} {c : Content}
  {path : String} {conv : Convention} {b : Backend} {old new : Graph}

/-- The ends of an edge of the graph of a file are used identifiers. -/
theorem Graph.IsOfFile.used {known : EntityName → Prop} {g : Graph} (h : g.IsOfFile known path)
    (hconv : ∀ e, known e → conv.kindOf e.id = e.kind ∧ conv.used e.id) {key : EdgeKey}
    (hkey : g.hasEdge key = true) : conv.used key.source ∧ conv.used key.target := by
  have hnode : ∀ {id}, g.hasNode id = true → conv.used id := by
    intro id hid
    rw [hasNode_eq, Option.isSome_iff_exists] at hid
    obtain ⟨n, hn⟩ := hid
    obtain ⟨e, he, hbears, -⟩ := h.named hn
    have hid : e.id = id := hbears.id.symm.trans (h.sound.id_eq hn)
    exact hid ▸ (hconv e he).2
  exact ⟨hnode (h.sound.source hkey), hnode (h.sound.target hkey)⟩

/-- What is saved of the graph of a file keeps its core apart and has no floats. -/
theorem Graph.IsOfFile.suitsRows {known : EntityName → Prop} (hnew : new.IsOfFile known path) :
    ∀ op ∈ ((Delta.between old new).sparing old path).operations, op.SuitsRows := by
  intro op hop
  simp only [Delta.operations, List.mem_append, List.mem_map] at hop
  rcases hop with ((⟨s, -, rfl⟩ | ⟨id, -, rfl⟩) | ⟨n, hn, rfl⟩) | ⟨e, he, rfl⟩
  · exact ⟨fun _ hn => absurd hn List.not_mem_nil, fun _ he => absurd he List.not_mem_nil⟩
  · exact ⟨fun _ hn => absurd hn List.not_mem_nil, fun _ he => absurd he List.not_mem_nil⟩
  · have hplain := hnew.plain ((Delta.mem_incomingNodes hnew.sound).mp hn).1
    refine ⟨fun m hm => ?_, fun _ he => absurd he List.not_mem_nil⟩
    obtain rfl := List.mem_singleton.mp hm
    exact ⟨hplain.apart, hplain.lacksFloats.keepsFloats⟩
  · have hextra : e.extra = ∅ := hnew.bare ((Delta.mem_addedEdges hnew.sound).mp he).1
    refine ⟨fun _ hn => absurd hn List.not_mem_nil, fun d hd => ?_⟩
    obtain rfl := List.mem_singleton.mp hd
    exact ⟨fun key _ => by rw [hextra]; rfl, fun key x hkey => by rw [hextra] at hkey; simp at hkey⟩

/-- A store of either kind is asked for nothing that it does not suit. -/
theorem InStep.suits (h : InStep made current c) (hnew : new.IsOfFile made path)
    (hold : Store.Restores c (current path) old) (hfits : b = .rows ∨ new.Fits)
    (hconv : b = .rows ∨ ∀ e, made e → conv.kindOf e.id = e.kind ∧ conv.used e.id) :
    ∀ op ∈ ((Delta.between old new).sparing old path).operations, b.Suits conv op := by
  intro op hop
  have hrows := hnew.suitsRows op hop
  cases b with
  | rows => exact hrows
  | entries cascades =>
      replace hfits := hfits.resolve_left fun h => (nomatch h)
      replace hconv := hconv.resolve_left fun h => (nomatch h)
      simp only [Delta.operations, List.mem_append, List.mem_map] at hop
      rcases hop with ((⟨s, hs, rfl⟩ | ⟨id, -, rfl⟩) | ⟨n, hn, rfl⟩) | ⟨e, he, rfl⟩
      · -- A deleted edge is one of the graph that the content is in step with.
        obtain ⟨key, rfl, hthere, -⟩ := (Delta.mem_deletedEdges hold.sound).mp hs
        rw [hold.hasEdge] at hthere
        obtain ⟨hsource, htarget⟩ := (h.ofFile path).used hconv hthere
        exact Backend.suits_deleteEdge _ hsource htarget _
      · exact Backend.suits_deleteNode _ id
      · have hfound := ((Delta.mem_incomingNodes hnew.sound).mp hn).1
        obtain ⟨hapart, hkeeps⟩ := hrows.1 n (List.mem_singleton_self n)
        obtain ⟨name, hname, hbears, -⟩ := hnew.named hfound
        have hkind : n.kind = conv.kindOf n.id := by rw [hbears.kind, hbears.id, (hconv name hname).1]
        exact Backend.suits_saveNode hapart hkeeps
          (.inr (hfits.nodes n ((hnew.sound.mem_nodeList n).mpr hfound))) hkind
      · have hfound := ((Delta.mem_addedEdges hnew.sound).mp he).1
        obtain ⟨hapart, hkeeps⟩ := hrows.2 e (List.mem_singleton_self e)
        have hthere : new.hasEdge e.key = true := by rw [Graph.hasEdge_eq, hfound]; rfl
        obtain ⟨hsource, htarget⟩ := hnew.used hconv hthere
        exact Backend.suits_saveEdge hapart hkeeps
          (.inr (hfits.edges e ((hnew.sound.mem_edgeList e).mpr hfound))) hsource htarget

/-- A graph whose nodes a content has, with the same content. -/
def Content.Has (c : Content) (g : Graph) : Prop :=
  ∀ {id n}, g.node? id = some n → ∃ m, c.node? id = some m ∧ m.sameContent n = true

/-- **Nothing is to be changed** if the content has the nodes of the graph. -/
theorem Store.Restores.isEmpty (hold : Store.Restores c new old) (hnew : new.IsSound) (hhas : c.Has new) :
    ((Delta.between old new).sparing old path).isEmpty = true := by
  rw [Delta.isEmpty_iff, List.eq_nil_iff_forall_not_mem]
  intro op hop
  simp only [Delta.operations, List.mem_append, List.mem_map] at hop
  -- each kind of operation would name what the content lacks, or has otherwise than the graph
  rcases hop with ((⟨s, hs, -⟩ | ⟨id, hid, -⟩) | ⟨n, hn, -⟩) | ⟨e, he, -⟩
  · obtain ⟨key, -, hthere, hgone⟩ := (Delta.mem_deletedEdges hold.sound).mp hs
    rw [hold.hasEdge, hgone] at hthere
    cases hthere
  · obtain ⟨n, hn, hgone, -⟩ := (Delta.mem_deletedNodes_sparing hold.sound).mp hid
    rw [hold.node?, hgone] at hn
    cases hn
  · obtain ⟨hfound, hdiffers⟩ := (Delta.mem_incomingNodes hnew).mp hn
    obtain ⟨m, hm, hsame⟩ := hhas hfound
    have hthere : new.hasNode n.id = true := by rw [Graph.hasNode_eq, hfound]; rfl
    rw [hold.node?, hthere, if_pos rfl, hm] at hdiffers
    simp [hsame] at hdiffers
  · obtain ⟨hfound, hmissing⟩ := (Delta.mem_addedEdges hnew).mp he
    rw [hold.hasEdge, Graph.hasEdge_eq, hfound] at hmissing
    cases hmissing

end

/-! ## The call -/

/-- What is agreed about all calls of a run on a store of a kind. Rows ask for nothing but that names
are told apart. -/
structure SyncCall.Agree (readers : List OutlineReader) (calls : List SyncCall) (conv : Convention)
    (b : Backend) : Prop where
  distinct : EntityName.Distinct (Made readers calls) (Paths calls)
  named : b = .rows ∨ ∀ e, Made readers calls e → conv.kindOf e.id = e.kind ∧ conv.used e.id
  fits : b = .rows ∨ ∀ call ∈ calls, ∀ f, call.outline? readers = some f → f.graph.Fits

section

variable {readers : List OutlineReader} {calls : List SyncCall} {call : SyncCall} {conv : Convention}
  {b : Backend} {s : Store} {c : Content} {current : String → Graph} {old new : Graph}

/-- The store can be read, and holds of the file what it was in step with. -/
theorem Store.Carries.fragment_eq (h : s.Carries conv b c)
    (hin : InStep (SyncCall.Made readers calls) current c) (agree : SyncCall.Agree readers calls conv b)
    (hcall : call ∈ calls) :
    ∃ old, s.fragment call.path = .ok old ∧ Store.Restores c (current call.path) old := by
  have hpath : SyncCall.Paths calls call.path := ⟨call, hcall, rfl⟩
  exact Store.fragment_eq h.shows (hin.ofFile call.path) (hin.covers agree.distinct hpath)
    fun n hn => hin.file agree.distinct hpath hn

/-- **The run of a call.** The fragment of the file is looked up, the changes are worked out, and what there is
to change is changed in a transaction. The first of the three that fails decides how the call ends. -/
theorem runOn_syncFile (readers : List OutlineReader) (d : Directory) (change : FileChange) (s : Store) :
    Action.runOn (m := Id) (syncFile readers d change) s =
      match s.fragment change.path.text with
      | .error failure => (.error (.failed failure), s)
      | .ok old =>
          match changesOf readers d change old with
          | .error failure => (.error (.failed failure), s)
          | .ok delta =>
              if (delta.sparing old change.path.text).isEmpty then (.ok (delta.sparing old change.path.text), s)
              else
                match Action.runOn (m := Id) (Action.transaction (delta.sparing old change.path.text).store) s with
                | (.error why, s') => (.error why, s')
                | (.ok _, s') => (.ok (delta.sparing old change.path.text), s') := by
  unfold syncFile
  cases hfragment : s.fragment change.path.text with
  | error failure => exact Action.bind_of_error (Action.runOn_read_of_error hfragment)
  | ok old =>
      rw [Action.bind_of_ends (Action.ends_read hfragment)]
      dsimp only
      cases changesOf readers d change old with
      | error failure => exact Action.bind_of_error (Action.runOn_read_of_error (f := fun _ => .error failure) rfl)
      | ok delta =>
          rw [Action.bind_of_ends (Action.ends_read (f := fun _ => .ok delta) rfl)]
          dsimp only
          cases hempty : (delta.sparing old change.path.text).isEmpty with
          | true => rfl
          | false =>
              rcases htransaction : Action.runOn (m := Id)
                (Action.transaction (delta.sparing old change.path.text).store) s with ⟨why | _, s'⟩
              · exact Action.bind_of_error htransaction
              · exact Action.bind_of_ends htransaction

/-- The run of a call by the graph that the file is to have. -/
theorem runOn_syncCall (readers : List OutlineReader) (call : SyncCall) (s : Store) :
    Action.runOn (m := Id) (syncFile readers call.directory call.change) s =
      match s.fragment call.path with
      | .error failure => (.error (.failed failure), s)
      | .ok old =>
          match call.target readers with
          | .error failure => (.error (.failed failure), s)
          | .ok new =>
              if ((Delta.between old new).sparing old call.path).isEmpty then
                (.ok ((Delta.between old new).sparing old call.path), s)
              else
                match Action.runOn (m := Id)
                  (Action.transaction ((Delta.between old new).sparing old call.path).store) s with
                | (.error why, s') => (.error why, s')
                | (.ok _, s') => (.ok ((Delta.between old new).sparing old call.path), s') := by
  rw [runOn_syncFile]
  unfold SyncCall.path
  cases s.fragment call.change.path.text with
  | error failure => rfl
  | ok old =>
      simp only [SyncCall.changesOf_eq]
      cases call.target readers <;> rfl

/-- **A call that cannot read its file** fails and changes nothing. -/
theorem syncFile_of_error (hold : s.fragment call.path = .ok old) {failure : Failure}
    (htarget : call.target readers = .error failure) :
    Action.runOn (m := Id) (syncFile readers call.directory call.change) s =
      (.error (.failed failure), s) := by
  rw [runOn_syncCall, hold, htarget]

/-- **A call that reads its file** keeps step with the content. -/
theorem Store.Carries.syncFile (h : s.Carries conv b c)
    (hin : InStep (SyncCall.Made readers calls) current c) (agree : SyncCall.Agree readers calls conv b)
    (hcall : call ∈ calls) (htarget : call.target readers = .ok new) :
    ∃ old s', Store.Restores c (current call.path) old ∧
      Action.Ends (syncFile readers call.directory call.change) s
        ((Delta.between old new).sparing old call.path) s' ∧
      s'.Carries conv b (c.after b.policy ((Delta.between old new).sparing old call.path).operations) ∧
      (((Delta.between old new).sparing old call.path).isEmpty = true → s' = s) := by
  obtain ⟨old, hfragment, hold⟩ := h.fragment_eq hin agree hcall
  have hrun := runOn_syncCall readers call s
  rw [hfragment, htarget] at hrun
  simp only at hrun
  -- Without changes no transaction is begun.
  cases hempty : ((Delta.between old new).sparing old call.path).isEmpty with
  | true =>
      rw [hempty, if_pos rfl] at hrun
      refine ⟨old, s, hold, hrun, ?_, fun _ => rfl⟩
      rw [(Delta.isEmpty_iff _).mp hempty]
      exact h
  | false =>
      obtain ⟨s', hends, hcarries⟩ := h.transaction (hin.suits (SyncCall.isOfFile_target hcall htarget) hold
        (agree.fits.imp_right fun hfits => SyncCall.fits_target htarget (hfits call hcall)) agree.named)
      have hmade : Action.runOn (m := Id)
        (Action.transaction ((Delta.between old new).sparing old call.path).store) s = (.ok (), s') := hends
      rw [hempty, if_neg Bool.false_ne_true, hmade] at hrun
      refine ⟨old, s', hold, hrun, hcarries, fun h => ?_⟩
      rw [hempty] at h
      cases h

end

end ProgramGraph
