import ProgramGraph.Proofs.Sync.Run

set_option autoImplicit false

/-! # Files in any order

What was read of each file, one call after the other, is all that a run of calls depends on: the last
graphs of the files follow from it, and so do the entities that files share. Two runs that read the
same of each file therefore lead to stores with the same nodes and edges, and with the same content of
what belongs to a file, in whatever order they deal with different files
(`Updater.processAll_interleaved`).
-/

namespace ProgramGraph

namespace SyncCall

/-- What was read of the file at a path: for each of its calls the change, and the outline if there is
one. -/
def readsOf (readers : List OutlineReader) (calls : List SyncCall) (path : String) :
    List (Change × Option FileOutline) :=
  (calls.filter fun call => call.path = path).map fun call => (call.change.change, call.outline? readers)

/-- The graph of a file after one more reading. -/
def nextGraph (g : Graph) : Change × Option FileOutline → Graph
  | (.delete, _) => ∅
  | (_, some f) => f.graph
  | (_, none) => g

section

variable {readers : List OutlineReader} {calls : List SyncCall}

/-- A call makes a difference to its own file. -/
theorem update_eq (call : SyncCall) (current : String → Graph) (path : String) :
    update readers current call path =
      if call.path = path then nextGraph (current path) (call.change.change, call.outline? readers)
      else current path := by
  cases htarget : call.target readers with
  | error failure =>
      have houtline := outline?_of_error htarget
      rw [update_of_error htarget, houtline.2]
      split
      · cases hchange : call.change.change with
        | delete => exact absurd hchange houtline.1
        | create | modify => rfl
      · rfl
  | ok g =>
      rw [update_of_ok htarget]
      by_cases hpath : call.path = path
      · rw [if_pos hpath, ← hpath, setGraph_self]
        rcases target_cases htarget with ⟨hdelete, rfl⟩ | ⟨f, hf, -, rfl⟩
        · rw [hdelete]
          rfl
        · rw [hf]
          cases hchange : call.change.change with
          | delete =>
              rw [outline?, hchange] at hf
              cases hf
          | create | modify => rfl
      · rw [if_neg hpath, setGraph_of_ne _ _ (Ne.symm hpath)]

/-- **The last graph of a file** follows from what was read of it. -/
theorem graphsAfter_eq (readers : List OutlineReader) (calls : List SyncCall) (path : String) :
    graphsAfter readers calls path = (readsOf readers calls path).foldl nextGraph ∅ := by
  have hfold : ∀ (calls : List SyncCall) (current : String → Graph),
      calls.foldl (update readers) current path = (readsOf readers calls path).foldl nextGraph (current path) := by
    intro calls
    induction calls with
    | nil => exact fun current => rfl
    | cons call rest ih =>
        intro current
        rw [List.foldl_cons, ih, update_eq, readsOf, readsOf]
        by_cases hpath : call.path = path
        · rw [if_pos hpath, List.filter_cons_of_pos (by simpa using hpath), List.map_cons, List.foldl_cons]
        · rw [if_neg hpath, List.filter_cons_of_neg (by simpa using hpath)]
  exact hfold calls _

/-- A question about some outline is one about what was read of some file. -/
theorem exists_outline_iff (p : FileOutline → Prop) :
    (∃ call ∈ calls, ∃ f, call.outline? readers = some f ∧ p f) ↔
      ∃ path, ∃ read ∈ readsOf readers calls path, ∃ f, read.2 = some f ∧ p f := by
  constructor
  · rintro ⟨call, hcall, hf⟩
    refine ⟨call.path, _, List.mem_map_of_mem (List.mem_filter.mpr ⟨hcall, ?_⟩), hf⟩
    exact decide_eq_true rfl
  · rintro ⟨path, read, hread, hf⟩
    obtain ⟨call, hcall, rfl⟩ := List.mem_map.mp hread
    exact ⟨call, (List.mem_filter.mp hcall).1, hf⟩

theorem paths_iff (readers : List OutlineReader) (path : String) :
    Paths calls path ↔ readsOf readers calls path ≠ [] := by
  rw [readsOf, ne_eq, List.map_eq_nil_iff, List.filter_eq_nil_iff]
  simp [Paths]

end

/-- The same was read of each file. -/
structure SameReads (readers₁ readers₂ : List OutlineReader) (calls₁ calls₂ : List SyncCall) : Prop where
  readsOf_eq : ∀ path, readsOf readers₁ calls₁ path = readsOf readers₂ calls₂ path

namespace SameReads

variable {readers₁ readers₂ : List OutlineReader} {calls₁ calls₂ : List SyncCall}
  (same : SameReads readers₁ readers₂ calls₁ calls₂)

include same

theorem graphsAfter_eq : graphsAfter readers₁ calls₁ = graphsAfter readers₂ calls₂ := by
  funext path
  rw [SyncCall.graphsAfter_eq, same.readsOf_eq, ← SyncCall.graphsAfter_eq]

theorem exists_outline_iff (p : FileOutline → Prop) :
    (∃ call ∈ calls₁, ∃ f, call.outline? readers₁ = some f ∧ p f) ↔
      ∃ call ∈ calls₂, ∃ f, call.outline? readers₂ = some f ∧ p f := by
  rw [SyncCall.exists_outline_iff, SyncCall.exists_outline_iff]
  exact exists_congr fun path => by rw [same.readsOf_eq]

theorem made_eq : Made readers₁ calls₁ = Made readers₂ calls₂ :=
  funext fun e => propext (same.exists_outline_iff (e ∈ ·.names))

theorem shares_eq : Shares readers₁ calls₁ = Shares readers₂ calls₂ :=
  funext fun e => propext (same.exists_outline_iff fun f => e ∈ f.moduleNames ∨ e ∈ f.calleeNames)

theorem paths_eq : Paths calls₁ = Paths calls₂ :=
  funext fun path => propext <| by
    rw [paths_iff readers₁, same.readsOf_eq, ← paths_iff]

end SameReads

end SyncCall

/-! ## Two stores -/

open SyncCall

/-- The stores have the same nodes and the same edges, and the nodes that belong to files with the same
content. Other nodes are shared. -/
structure Store.AgreeOnFiles (shared : EntityName → Prop) (paths : String → Prop) (s₁ s₂ : Store) : Prop where
  nodes : ∀ id, ∃ there, s₁.hasNode id = .ok there ∧ s₂.hasNode id = .ok there
  edges : ∀ id, ∃ edges₁ edges₂, s₁.edgesFrom id none none = .ok edges₁ ∧
    s₂.edgesFrom id none none = .ok edges₂ ∧ (edges₁.map Edge.key).Perm (edges₂.map Edge.key)
  contents : ∀ {id n₁ path}, paths path → s₁.node? id = .ok (some n₁) → n₁.isOwnedBy path = true →
    ∃ n₂, s₂.node? id = .ok (some n₂) ∧ n₂.kind = n₁.kind ∧ ∀ key, n₂.property? key = n₁.property? key
  others : ∀ {id n₁}, s₁.node? id = .ok (some n₁) → (∀ path, paths path → ¬n₁.isOwnedBy path = true) →
    ∃ e, shared e ∧ n₁.Bears e

namespace Content.Reflects

variable {readers readers₁ readers₂ : List OutlineReader} {calls calls₁ calls₂ : List SyncCall}
  {c c₁ c₂ : Content}

/-- **The nodes** are those of the last graphs and those that files share. -/
theorem hasNode_iff (h : c.Reflects readers calls calls) (id : String) :
    c.hasNode id = true ↔
      (∃ path, (graphsAfter readers calls path).hasNode id = true) ∨ ∃ e, Shares readers calls e ∧ e.id = id := by
  constructor
  · exact h.nodes
  · rintro (⟨path, hpath⟩ | ⟨e, he, rfl⟩)
    · exact h.inStep.nodes hpath
    · exact h.shared he

/-- A stored node that no file owns is shared. -/
theorem shares_of_not_isOwnedBy (h : c.Reflects readers calls calls)
    (distinct : EntityName.Distinct (Made readers calls) (Paths calls)) {id : String} {n : Node}
    (hn : c.node? id = some n) (howned : ∀ path, Paths calls path → ¬n.isOwnedBy path = true) :
    ∃ e, Shares readers calls e ∧ n.Bears e := by
  obtain ⟨e, he, hbears⟩ := h.inStep.named hn
  obtain ⟨call, hcall, f, hf, hname⟩ := he
  refine ⟨e, shares_of_not_isOf hcall hf hname fun hof => ?_, hbears⟩
  rw [path_of_outline? hf] at hof
  have hpath : Paths calls call.path := ⟨call, hcall, rfl⟩
  exact howned _ hpath ((distinct.isOwnedBy_iff hbears ⟨call, hcall, f, hf, hname⟩ hpath).mpr hof)

/-- A stored node that a file owns has the content that it has in the last graph of the file. -/
theorem exists_of_isOwnedBy (h : c.Reflects readers calls calls)
    (distinct : EntityName.Distinct (Made readers calls) (Paths calls)) {id path : String} {n : Node}
    (hpath : Paths calls path) (hn : c.node? id = some n) (howned : n.isOwnedBy path = true) :
    ∃ e m, Made readers calls e ∧ e.IsOf path ∧ e.id = id ∧ m.IsPlain ∧
      (graphsAfter readers calls path).node? id = some m ∧ n.sameContent m = true := by
  obtain ⟨e, he, hbears⟩ := h.inStep.named hn
  obtain rfl : e.id = id := hbears.id.symm.trans (c.id_eq hn)
  have hof : e.IsOf path := (distinct.isOwnedBy_iff hbears he hpath).mp howned
  have hthere := h.inStep.owned he hof (by rw [Content.hasNode, hn]; rfl)
  rw [Graph.hasNode_eq, Option.isSome_iff_exists] at hthere
  obtain ⟨m, hm⟩ := hthere
  exact ⟨e, m, he, hof, rfl, (h.inStep.ofFile path).plain hm, hm, h.contents he hof hm hn⟩

/-- **Two contents** that reflect the same readings agree on files. -/
theorem agreeOnFiles (same : SameReads readers₁ readers₂ calls₁ calls₂)
    (distinct : EntityName.Distinct (Made readers₁ calls₁) (Paths calls₁))
    (h₁ : c₁.Reflects readers₁ calls₁ calls₁) (h₂ : c₂.Reflects readers₂ calls₂ calls₂) {s₁ s₂ : Store}
    (hs₁ : s₁.Shows c₁) (hs₂ : s₂.Shows c₂) :
    Store.AgreeOnFiles (Shares readers₁ calls₁) (Paths calls₁) s₁ s₂ := by
  have hnode₁ : ∀ {id n}, s₁.node? id = .ok (some n) → c₁.node? id = some n := by
    intro id n hn
    exact Except.ok.inj ((hs₁.node? id).symm.trans hn)
  constructor
  case nodes =>
    intro id
    have hsame : c₁.hasNode id = c₂.hasNode id := by
      rw [Bool.eq_iff_iff, h₁.hasNode_iff, h₂.hasNode_iff, same.graphsAfter_eq, same.shares_eq]
    exact ⟨_, hs₁.hasNode id, by rw [hs₂.hasNode, hsame]⟩
  case edges =>
    intro id
    obtain ⟨keys₁, hkeys₁, hedges₁⟩ := hs₁.edgesFrom id none none
    obtain ⟨keys₂, hkeys₂, hedges₂⟩ := hs₂.edgesFrom id none none
    refine ⟨_, _, hedges₁, hedges₂, ?_⟩
    rw [Content.map_key_filterMap hkeys₁, Content.map_key_filterMap hkeys₂]
    refine hkeys₁.perm hkeys₂ fun key => ?_
    rw [Content.HasEdgeIn, Content.HasEdgeIn, h₁.inStep.edges, h₂.inStep.edges, same.graphsAfter_eq]
  case contents =>
    intro id n₁ path hpath hn₁ howned
    obtain ⟨e, m, he, hof, rfl, hplain, hm, hsame₁⟩ :=
      h₁.exists_of_isOwnedBy distinct hpath (hnode₁ hn₁) howned
    rw [same.graphsAfter_eq] at hm
    rw [same.made_eq] at he
    -- The last graph of the file is the same in both runs, and each store has the content that is there.
    obtain ⟨n₂, hn₂⟩ := Option.isSome_iff_exists.mp (h₂.inStep.nodes (by rw [Graph.hasNode_eq, hm]; rfl))
    obtain ⟨hkind₁, hproperty₁⟩ := hplain.of_sameContent hsame₁
    obtain ⟨hkind₂, hproperty₂⟩ := hplain.of_sameContent (h₂.contents he hof hm hn₂)
    refine ⟨n₂, by rw [hs₂.node?, hn₂], hkind₂.trans hkind₁.symm, fun key => ?_⟩
    exact (hproperty₂ key).trans (hproperty₁ key).symm
  case others =>
    intro id n₁ hn₁ howned
    exact h₁.shares_of_not_isOwnedBy distinct (hnode₁ hn₁) howned

end Content.Reflects

/-- **The order of files makes no difference** to stores of rows: two runs from nothing that read the same
of each file lead to the same nodes, the same edges, and the same content of the nodes that belong to a
file. Only the content of the modules and of the callees from outside may differ. The names that are met
are told apart by their identifiers. -/
theorem Updater.processAll_interleaved {s₁ s₂ : Store} (fresh₁ : s₁.IsFresh .rows) (fresh₂ : s₂.IsFresh .rows)
    (u₁ u₂ : Updater) (calls₁ calls₂ : List SyncCall)
    (distinct : EntityName.Distinct (Made u₁.readers calls₁) (Paths calls₁))
    (same : SameReads u₁.readers u₂.readers calls₁ calls₂) :
    Store.AgreeOnFiles (Shares u₁.readers calls₁) (Paths calls₁) (u₁.processAll s₁ calls₁).2
      (u₂.processAll s₂ calls₂).2 := by
  have distinct₂ : EntityName.Distinct (Made u₂.readers calls₂) (Paths calls₂) := by
    rw [← same.made_eq, ← same.paths_eq]
    exact distinct
  obtain ⟨-, c₁, hcarries₁, h₁⟩ :=
    (Store.Reflects.of_isFresh fresh₁).processAll (.of_rows distinct) (u := u₁) rfl fun _ hcall => hcall
  obtain ⟨-, c₂, hcarries₂, h₂⟩ :=
    (Store.Reflects.of_isFresh fresh₂).processAll (.of_rows distinct₂) (u := u₂) rfl fun _ hcall => hcall
  exact h₁.agreeOnFiles same distinct h₂ hcarries₁.shows hcarries₂.shows

/-- Two files import one module in different ways, and are put in one way round and the other. -/
theorem Updater.processAll_interleaved_sharedModule :
    let file (path text : String) : Directory :=
      ⟨.ofList [([path], DirectoryEntry.file 0)], .ofList [(0, FileContent.bytes (Text.utf8 text))], 1⟩
    let u := Updater.new [⟨"python", [".py"], .standard⟩] .standard
    let a : SyncCall := ⟨⟨⟨"a.py"⟩, .create⟩, file "a.py" "\x7b\"imports\":[\x7b\"module\":\"os\"\x7d]\x7d", 0⟩
    let b : SyncCall := ⟨⟨⟨"b.py"⟩, .create⟩,
      file "b.py" "\x7b\"imports\":[\x7b\"module\":\"os\",\"type\":\"from\"\x7d]\x7d", 1⟩
    let s := Store.table (.ofRows .inMemory .empty)
    Store.AgreeOnFiles (Shares u.readers [a, b]) (Paths [a, b]) (u.processAll s [a, b]).2
      (u.processAll s [b, a]).2 := by
  intro file u a b s
  have fresh : s.IsFresh .rows := .table .inMemory
  have hnames : namesMade u.readers [a, b] =
      [.ofFile "a.py", ⟨.module, none, "os"⟩, .ofFile "b.py", ⟨.module, none, "os"⟩] := by decide +kernel
  have distinct : EntityName.Distinct (Made u.readers [a, b]) (Paths [a, b]) := by
    rw [made_eq, paths_eq, hnames]
    exact .of_metNames (by decide +kernel)
  have same : SameReads u.readers u.readers [a, b] [b, a] := by
    constructor
    intro path
    have ha : a.path = "a.py" := rfl
    have hb : b.path = "b.py" := rfl
    simp only [readsOf, List.filter_cons, List.filter_nil, ha, hb]
    by_cases hpath : "a.py" = path
    · subst hpath
      rfl
    · simp [hpath]
  exact processAll_interleaved fresh fresh u u [a, b] [b, a] distinct same

end ProgramGraph
