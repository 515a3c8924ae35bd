import ProgramGraph.Proofs.Sync.Call

set_option autoImplicit false

/-! # An updater keeps a store in step

However an updater is called, the store carries a content that is in step with what was read last
of each file (`Store.Follows`): a call keeps this, and so does a run. Right after a file was dealt
with well, the store therefore mirrors the graph of the file, and dealing with the file again
changes nothing (`Updater.process_converges`).
-/

namespace ProgramGraph

/-- Deals with calls one after the other. -/
def Updater.processAll (u : Updater) (s : Store) (calls : List SyncCall) : Updater × Store :=
  calls.foldl (fun acc call => (acc.1.process call.directory call.change (acc.2.atMoment call.now)).2) (u, s)

/-- **The store mirrors the graph of a file**: it has just the nodes of the graph that the file
owns, the nodes of the graph with their content, and just the edges of the graph at the nodes that
the file owns. -/
structure Store.Mirrors (s : Store) (path : String) (g : Graph) : Prop where
  owned : ∀ id, (∃ n, s.node? id = .ok (some n) ∧ n.isOwnedBy path = true) ↔
    ∃ n, g.node? id = some n ∧ n.isOwnedBy path = true
  nodes : ∀ id n, g.node? id = some n → ∃ m, s.node? id = .ok (some m) ∧ m.sameContent n = true
  leaving : ∀ id n, s.node? id = .ok (some n) → n.isOwnedBy path = true →
    ∃ edges, s.edgesFrom id none none = .ok edges ∧
      Enumerates (fun key => g.hasEdge key = true ∧ key.source = id) (edges.map Edge.key)
  sources : ∀ key, g.hasEdge key = true → ∃ n, s.node? key.source = .ok (some n) ∧ n.isOwnedBy path = true

/-- A store with a content in step mirrors the graph of each file whose nodes have their content. -/
theorem InStep.mirrors {made : EntityName → Prop} {paths : String → Prop} {current : String → Graph}
    {c : Content} {s : Store} {path : String} (h : InStep made current c)
    (distinct : EntityName.Distinct made paths) (hpath : paths path) (hs : s.Shows c)
    (hhas : c.Has (current path)) : s.Mirrors path (current path) := by
  have hnode : ∀ {id n}, s.node? id = .ok (some n) ↔ c.node? id = some n := by
    intro id n
    rw [hs.node?]
    exact ⟨fun heq => Except.ok.inj heq, fun heq => congrArg Except.ok heq⟩
  have hstored : ∀ {id n}, c.node? id = some n → n.isOwnedBy path = true →
      ∃ e, made e ∧ e.id = id ∧ e.IsOf path := by
    intro id n hn howned
    obtain ⟨e, he, hbears⟩ := h.named hn
    exact ⟨e, he, hbears.id.symm.trans (c.id_eq hn), (distinct.isOwnedBy_iff hbears he hpath).mp howned⟩
  constructor
  case owned =>
    intro id
    constructor
    · rintro ⟨n, hn, howned⟩
      -- A stored node of the file is in its graph, where the same name has the same identifier.
      obtain ⟨e, he, rfl, hof⟩ := hstored (hnode.mp hn) howned
      have hthere := h.owned he hof (by rw [Content.hasNode, hnode.mp hn]; rfl)
      rw [Graph.hasNode_eq, Option.isSome_iff_exists] at hthere
      obtain ⟨m, hm⟩ := hthere
      obtain ⟨e', he', hbears, -⟩ := (h.ofFile path).named hm
      have hid : e'.id = e.id := hbears.id.symm.trans ((h.ofFile path).sound.id_eq hm)
      obtain rfl := distinct e' e (.made he') (.made he) hid
      exact ⟨m, hm, (distinct.isOwnedBy_iff hbears he hpath).mpr hof⟩
    · rintro ⟨m, hm, howned⟩
      -- The other way round the graph has its nodes in the store, under the same names.
      obtain ⟨n, hn, -⟩ := hhas hm
      obtain ⟨e, he, hbears, -⟩ := (h.ofFile path).named hm
      have hid : e.id = id := hbears.id.symm.trans ((h.ofFile path).sound.id_eq hm)
      have hof := (distinct.isOwnedBy_iff hbears he hpath).mp howned
      exact ⟨n, hnode.mpr hn, (distinct.isOwnedBy_iff (h.bears distinct he (hid.symm ▸ hn)) he hpath).mpr hof⟩
  case nodes =>
    intro id n hn
    obtain ⟨m, hm, hsame⟩ := hhas hn
    exact ⟨m, hnode.mpr hm, hsame⟩
  case leaving =>
    intro id n hn howned
    obtain ⟨keys, hkeys, hedges⟩ := hs.edgesFrom id none none
    refine ⟨_, hedges, ?_⟩
    rw [Content.map_key_filterMap hkeys]
    refine hkeys.congr fun key => ?_
    have hcovers := h.covers distinct hpath
    simp only [Content.HasEdgeIn, Option.all_none, Bool.and_true, decide_eq_true_eq]
    constructor
    · rintro ⟨hkey, rfl⟩
      exact ⟨hcovers.closed hkey (hnode.mp hn) howned, rfl⟩
    · rintro ⟨hkey, rfl⟩
      exact ⟨hcovers.edges hkey, rfl⟩
  case sources =>
    intro key hkey
    have hthere := h.nodes ((h.ofFile path).sound.source hkey)
    rw [Content.hasNode, Option.isSome_iff_exists] at hthere
    obtain ⟨n, hn⟩ := hthere
    exact ⟨n, hnode.mpr hn, (h.covers distinct hpath).owned hkey hn⟩

/-! ## Runs -/

section

variable {readers : List OutlineReader} {all : List SyncCall} {call : SyncCall} {conv : Convention}
  {b : Backend} {s : Store} {current : String → Graph} {c : Content} {new : Graph}

/-- The store carries a content that is in step with the graphs. -/
def Store.Follows (readers : List OutlineReader) (all : List SyncCall) (conv : Convention) (b : Backend)
    (current : String → Graph) (s : Store) : Prop :=
  ∃ c, s.Carries conv b c ∧ InStep (SyncCall.Made readers all) current c

/-- In the beginning there are no files. -/
theorem Store.IsFresh.follows (h : s.IsFresh b) : s.Follows readers all conv b fun _ => ∅ := by
  cases h with
  | table settings => exact ⟨∅, .of_noRows conv settings, .empty _⟩
  | keyed stays now => exact ⟨∅, .of_noEntries conv stays now, .empty _⟩

theorem Updater.process_eq {u : Updater} {d : Directory} {change : FileChange} {s' : Store}
    {result : Except Stop Delta}
    (h : Action.runOn (m := Id) (syncFile u.readers d change) s = (result, s')) :
    u.process d change s = (result, u.count result, s') := by
  rw [process, h]

@[simp] theorem Updater.readers_count (u : Updater) (result : Except Stop Delta) :
    (u.count result).readers = u.readers := by
  cases result <;> rfl

/-- **A call that reads its file** leads to a store with the new graph. If the store had the graph
before, nothing changes. -/
theorem Updater.process_of_ok (agree : SyncCall.Agree readers all conv b) (hcall : call ∈ all)
    (hcarries : s.Carries conv b c) (hin : InStep (SyncCall.Made readers all) current c)
    (htarget : call.target readers = .ok new) {u : Updater} (hreaders : u.readers = readers) :
    ∃ delta s' c', u.process call.directory call.change s = (.ok delta, u.count (.ok delta), s') ∧
      s'.Carries conv b c' ∧ InStep (SyncCall.Made readers all) (setGraph current call.path new) c' ∧
      c'.Has new ∧ (current call.path = new → c.Has new → delta.isEmpty = true ∧ s' = s) := by
  obtain ⟨old, s', hold, hends, hafter, hsame⟩ := hcarries.syncFile hin agree hcall htarget
  have hnew := SyncCall.isOfFile_target hcall htarget
  rw [← hreaders] at hends
  refine ⟨_, s', _, process_eq hends, hafter, hin.after agree.distinct ⟨call, hcall, rfl⟩ b.policy hnew hold,
    ?_, ?_⟩
  · intro id n hn
    obtain ⟨m, hm, hcontent, -⟩ := hin.node?_after_some b.policy hnew hold hn
    exact ⟨m, hm, hcontent⟩
  · intro heq hhas
    have hempty : ((Delta.between old new).sparing old call.path).isEmpty = true :=
      Store.Restores.isEmpty (heq ▸ hold) hnew.sound hhas
    exact ⟨hempty, hsame hempty⟩

/-- **A call that cannot read its file** fails and changes nothing. -/
theorem Updater.process_of_error (agree : SyncCall.Agree readers all conv b) (hcall : call ∈ all)
    (hfollows : s.Follows readers all conv b current) {failure : Failure}
    (htarget : call.target readers = .error failure) {u : Updater} (hreaders : u.readers = readers) :
    u.process call.directory call.change s =
      (.error (.failed failure), u.count (.error (.failed failure)), s) := by
  obtain ⟨c, hcarries, hin⟩ := hfollows
  obtain ⟨old, hfragment, -⟩ := hcarries.fragment_eq hin agree hcall
  exact process_eq (hreaders ▸ syncFile_of_error hfragment htarget)

/-- Time may pass. -/
theorem Store.Follows.atMoment (h : s.Follows readers all conv b current) (now : UInt64) :
    (s.atMoment now).Follows readers all conv b current := by
  obtain ⟨c, hcarries, hin⟩ := h
  exact ⟨c, hcarries.atMoment now, hin⟩

/-- **A call** keeps the store in step, if with other graphs. -/
theorem Store.Follows.process (h : s.Follows readers all conv b current)
    (agree : SyncCall.Agree readers all conv b) (hcall : call ∈ all) {u : Updater}
    (hreaders : u.readers = readers) :
    (u.process call.directory call.change s).2.1.readers = readers ∧
      ∃ current', (u.process call.directory call.change s).2.2.Follows readers all conv b current' := by
  cases htarget : call.target readers with
  | error failure =>
      rw [Updater.process_of_error agree hcall h htarget hreaders]
      exact ⟨(u.readers_count _).trans hreaders, current, h⟩
  | ok new =>
      obtain ⟨c, hcarries, hin⟩ := h
      obtain ⟨delta, s', c', hprocess, hcarries', hin', -⟩ :=
        Updater.process_of_ok agree hcall hcarries hin htarget hreaders
      rw [hprocess]
      exact ⟨(u.readers_count _).trans hreaders, _, c', hcarries', hin'⟩

/-- **A run** keeps the store in step. -/
theorem Store.Follows.processAll (h : s.Follows readers all conv b current)
    (agree : SyncCall.Agree readers all conv b) {u : Updater} (hreaders : u.readers = readers)
    {calls : List SyncCall} (hcalls : ∀ call ∈ calls, call ∈ all) :
    (u.processAll s calls).1.readers = readers ∧
      ∃ current', (u.processAll s calls).2.Follows readers all conv b current' := by
  induction calls generalizing u s current with
  | nil => exact ⟨hreaders, current, h⟩
  | cons call rest ih =>
      obtain ⟨hreaders', current', hnext⟩ :=
        (h.atMoment call.now).process agree (hcalls call List.mem_cons_self) hreaders
      exact ih hnext hreaders' fun other hother => hcalls other (List.mem_cons_of_mem _ hother)

end

/-! ## Convergence -/

section

variable {b : Backend} {s : Store} (fresh : s.IsFresh b) (u : Updater) (calls : List SyncCall)
  (last : SyncCall)
  (distinct : EntityName.Distinct (SyncCall.Made u.readers (calls ++ [last])) (SyncCall.Paths (calls ++ [last])))
  (unambiguous : Unambiguous fun id => ∃ e, SyncCall.Made u.readers (calls ++ [last]) e ∧ e.id = id)
  (fits : b = .rows ∨ ∀ call ∈ calls ++ [last], ∀ f, call.outline? u.readers = some f → f.graph.Fits)

include fresh distinct unambiguous fits

/-- Before the last call the store is in step. -/
theorem Updater.follows_processAll :
    ∃ conv current, SyncCall.Agree u.readers (calls ++ [last]) conv b ∧
      (u.processAll s calls).1.readers = u.readers ∧
      ((u.processAll s calls).2.atMoment last.now).Follows u.readers (calls ++ [last]) conv b current := by
  obtain ⟨conv, hconv⟩ := distinct.exists_convention unambiguous
  have agree : SyncCall.Agree u.readers (calls ++ [last]) conv b := ⟨distinct, .inr hconv, fits⟩
  obtain ⟨hreaders, current, hfollows⟩ := fresh.follows.processAll agree (u := u) rfl
    fun call hcall => List.mem_append_left [last] hcall
  exact ⟨conv, current, agree, hreaders, hfollows.atMoment last.now⟩

/-- **A call ends well** if its file is deleted or can be read. -/
theorem Updater.process_ends {new : Graph} (htarget : last.target u.readers = .ok new) :
    ∃ delta u₂ s₂, (u.processAll s calls).1.process last.directory last.change
      ((u.processAll s calls).2.atMoment last.now) = (.ok delta, u₂, s₂) := by
  obtain ⟨conv, current, agree, hreaders, c, hcarries, hin⟩ :=
    follows_processAll fresh u calls last distinct unambiguous fits
  obtain ⟨delta, s', c', hprocess, -⟩ := process_of_ok agree
    (List.mem_append_right calls (List.mem_singleton_self last)) hcarries hin htarget hreaders
  exact ⟨delta, _, s', hprocess⟩

/-- **After a file was dealt with well**, the store mirrors the graph of the file as it was read, and
dealing with the file again finds nothing to change: whatever was called before, on a store of
either kind. The names that are met are told apart by their identifiers, and identifiers joined by
a colon can be taken apart. For a keyed store the outlines are within what its encoding can say. -/
theorem Updater.process_converges (notDeleted : last.change.change ≠ .delete) {u₁ u₂ : Updater}
    {s₁ s₂ : Store} {delta : Delta} (hrun : u.processAll s calls = (u₁, s₁))
    (hlast : u₁.process last.directory last.change (s₁.atMoment last.now) = (.ok delta, u₂, s₂)) :
    ∃ f, last.outline? u.readers = some f ∧ s₂.Mirrors last.path f.graph ∧
      ∀ now, ∃ again u₃,
        u₂.process last.directory last.change (s₂.atMoment now) = (.ok again, u₃, s₂.atMoment now) ∧
          again.isEmpty = true := by
  have hmem : last ∈ calls ++ [last] := List.mem_append_right calls (List.mem_singleton_self last)
  obtain ⟨conv, current, agree, hreaders, hfollows⟩ :=
    follows_processAll fresh u calls last distinct unambiguous fits
  rw [hrun] at hreaders hfollows
  cases htarget : last.target u.readers with
  | error failure =>
      -- The call would have failed.
      rw [process_of_error agree hmem hfollows htarget hreaders] at hlast
      cases hlast
  | ok new =>
      obtain ⟨c, hcarries, hin⟩ := hfollows
      obtain ⟨delta', s', c', hprocess, hcarries', hin', hhas, -⟩ :=
        process_of_ok agree hmem hcarries hin htarget hreaders
      rw [hprocess] at hlast
      cases hlast
      rcases SyncCall.target_cases htarget with ⟨hdelete, -⟩ | ⟨f, hf, -, rfl⟩
      · exact absurd hdelete notDeleted
      · refine ⟨f, hf, ?_, fun now => ?_⟩
        · have hmirrors := hin'.mirrors distinct ⟨last, hmem, rfl⟩ hcarries'.shows
            (by rw [setGraph_self]; exact hhas)
          rwa [setGraph_self] at hmirrors
        · -- The store is in step with the graph already, so the same call changes nothing.
          obtain ⟨again, s'', c'', hagain, -, -, -, hsame⟩ :=
            process_of_ok agree hmem (hcarries'.atMoment now) hin' htarget ((u₁.readers_count _).trans hreaders)
          obtain ⟨hempty, rfl⟩ := hsame (setGraph_self _ _ _) hhas
          exact ⟨again, _, hagain, hempty⟩

end

/-- A file with a function that calls another is put in, then cannot be read, and then the call is
gone. -/
theorem Updater.process_converges_callGone :
    let path : FilePath := ⟨"a.py"⟩
    let file (text : String) : Directory :=
      ⟨.ofList [(["a.py"], DirectoryEntry.file 0)], .ofList [(0, FileContent.bytes (Text.utf8 text))], 1⟩
    let u := Updater.new [⟨"python", [".py"], .standard⟩] .standard
    let calling := "\x7b\"functions\":[\x7b\"name\":\"f\",\"calls\":[\x7b\"name\":\"g\"\x7d]\x7d]\x7d"
    let calls : List SyncCall := [⟨⟨path, .create⟩, file calling, 0⟩, ⟨⟨path, .modify⟩, .empty, 1⟩]
    let last : SyncCall := ⟨⟨path, .modify⟩, file "\x7b\"functions\":[\x7b\"name\":\"f\"\x7d]\x7d", 2⟩
    let settings := { KeyedSettings.standard with defaultLife := none }
    let s := Store.keyed (.ofEntries settings ∅ 0)
    ∃ delta u₂ s₂, (u.processAll s calls).1.process last.directory last.change
        ((u.processAll s calls).2.atMoment last.now) = (.ok delta, u₂, s₂) ∧
      ∃ f, last.outline? u.readers = some f ∧ s₂.Mirrors last.path f.graph ∧
        ∀ now, ∃ again u₃,
          u₂.process last.directory last.change (s₂.atMoment now) = (.ok again, u₃, s₂.atMoment now) ∧
            again.isEmpty = true := by
  intro path file u calling calls last settings s
  have stays : settings.defaultLife = none := rfl
  have fresh : s.IsFresh (.entries settings.cascadeIncoming) := .keyed stays 0
  have hnames : SyncCall.namesMade u.readers (calls ++ [last]) =
      [.ofFile "a.py", ⟨.function, some "a.py", "f"⟩, ⟨.function, none, "external.g"⟩,
        .ofFile "a.py", ⟨.function, some "a.py", "f"⟩] := by decide +kernel
  have distinct : EntityName.Distinct (SyncCall.Made u.readers (calls ++ [last]))
      (SyncCall.Paths (calls ++ [last])) := by
    rw [SyncCall.made_eq, SyncCall.paths_eq, hnames]
    exact .of_metNames (by decide +kernel)
  have unambiguous : Unambiguous fun id =>
      ∃ e, SyncCall.Made u.readers (calls ++ [last]) e ∧ e.id = id := by
    rw [SyncCall.made_eq, hnames]
    exact .of_names (by decide +kernel)
  have fits : Backend.entries settings.cascadeIncoming = .rows ∨
      ∀ call ∈ calls ++ [last], ∀ f, call.outline? u.readers = some f → f.graph.Fits :=
    .inr (by decide +kernel)
  have hread : (last.target u.readers).toOption.isSome = true := by decide +kernel
  -- the target is not computed, only that there is one
  cases htarget : last.target u.readers with
  | error failure =>
      rw [htarget] at hread
      cases hread
  | ok new =>
      obtain ⟨delta, u₂, s₂, hlast⟩ :=
        process_ends fresh u calls last distinct unambiguous fits htarget
      exact ⟨delta, u₂, s₂, hlast,
        process_converges fresh u calls last distinct unambiguous fits (by decide) rfl hlast⟩

end ProgramGraph
