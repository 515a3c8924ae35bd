import ProgramGraph.Proofs.Sync.Run

set_option autoImplicit false

/-! # Edges as they were introduced

A call tells edges by what identifies them, and adds those that the store lacks. So a stored edge has the
properties with which it came into the graph of its file, and keeps them as long as the file is read with
an edge of this kind between the same nodes (`Updater.process_keeps_introduced`), even if there is
another line, name or argument by now (`Updater.process_keeps_introduced_lineMoved`).
-/

namespace ProgramGraph

namespace SyncCall

variable {readers : List OutlineReader} {calls : List SyncCall} {last : SyncCall} {path : String}
  {key : EdgeKey} {d : Edge}

/-- An edge that was there before the last call was introduced before it. -/
theorem Introduces.of_append (h : Introduces readers (calls ++ [last]) path key d)
    (hthere : (graphsAfter readers calls path).hasEdge key = true) : Introduces readers calls path key d := by
  obtain ⟨before, first, after, g, hcalls, hfirst, hg, hd, hbefore, hafter⟩ := h
  rcases List.eq_nil_or_concat after with rfl | ⟨rest, other, rfl⟩
  · obtain ⟨rfl, -⟩ := List.append_inj' hcalls rfl
    rw [hthere] at hbefore
    cases hbefore
  · have hsplit : calls ++ [last] = (before ++ first :: rest) ++ [other] := by simpa using hcalls
    obtain ⟨rfl, -⟩ := List.append_inj' hsplit rfl
    refine ⟨before, first, rest, g, rfl, hfirst, hg, hd, hbefore, fun later hlater => hafter later ?_⟩
    rw [List.concat_eq_append]
    exact List.mem_append_left _ hlater

/-- What a single call introduces is in its graph. -/
theorem Introduces.of_single (h : Introduces readers [last] path key d) :
    ∃ g, last.target readers = .ok g ∧ g.edge? key = some d := by
  obtain ⟨before, first, after, g, hcalls, -, hg, hd, -⟩ := h
  have hfirst : first ∈ [last] := hcalls ▸ List.mem_append_right before List.mem_cons_self
  obtain rfl := List.mem_singleton.mp hfirst
  exact ⟨g, hg, hd⟩

/-- An introduced edge keeps its properties apart from its core, as it has no others. -/
theorem Introduces.isApart (h : Introduces readers calls path key d) : d.key = key ∧ d.IsApart := by
  obtain ⟨before, first, after, g, rfl, -, hg, hd, -⟩ := h
  have hfile := isOfFile_target (List.mem_append_right before (List.mem_cons_self (l := after))) hg
  refine ⟨hfile.sound.key_eq hd, fun name _ => ?_⟩
  rw [hfile.bare hd]
  rfl

end SyncCall

open SyncCall

/-- **An edge that leaves a node of a file** was introduced by a call for the file. -/
theorem Content.Reflects.introduces {readers : List OutlineReader} {calls : List SyncCall} {c : Content}
    (h : c.Reflects readers calls calls) (distinct : EntityName.Distinct (Made readers calls) (Paths calls))
    {path : String} (hpath : Paths calls path) {key : EdgeKey} {e : Edge} (he : c.edge? key = some e)
    {n : Node} (hn : c.node? key.source = some n) (howned : n.isOwnedBy path = true) :
    (graphsAfter readers calls path).hasEdge key = true ∧
      ∃ d, Introduces readers calls path key d ∧ ∀ name : String, e.properties[name]? = d.properties[name]? := by
  obtain ⟨other, d, hd, rfl⟩ := h.edges he
  have hsource := (h.inStep.ofFile other).sound.source hd.hasEdge
  obtain rfl := h.inStep.path_eq distinct hpath hn howned hsource
  exact ⟨hd.hasEdge, d, hd, hd.isApart.2.getElem?_properties⟩

section

variable {s : Store} (fresh : s.IsFresh .rows) (u : Updater) (calls : List SyncCall) (last : SyncCall)
  (distinct : EntityName.Distinct (Made u.readers (calls ++ [last])) (Paths (calls ++ [last])))

include fresh distinct

/-- The last call ends well if its file is deleted or can be read, and leads to a store that reflects all
calls. -/
theorem Updater.reflects_last :
    ((∃ delta u₂ s₂, (u.processAll s calls).1.process last.directory last.change
        ((u.processAll s calls).2.atMoment last.now) = (.ok delta, u₂, s₂)) ↔
      ∃ g, last.target u.readers = .ok g) ∧
    ((u.processAll s calls).1.process last.directory last.change
      ((u.processAll s calls).2.atMoment last.now)).2.2.Reflects u.readers (calls ++ [last]) .vacuous .rows
        (calls ++ [last]) := by
  have agree := SyncCall.Agree.of_rows distinct
  have hmem : last ∈ calls ++ [last] := List.mem_append_right calls (List.mem_singleton_self last)
  obtain ⟨hreaders, hreflects⟩ := (Store.Reflects.of_isFresh fresh).processAll agree (u := u) rfl
    fun call hcall => List.mem_append_left [last] hcall
  have hbefore := hreflects.atMoment last.now
  exact ⟨hbefore.process_ends_iff agree hmem hreaders, (hbefore.process agree hmem hreaders).2⟩

/-- **After a file was dealt with well**, the stored edges that leave its nodes are edges of its graph, and
each has just the properties with which it was introduced: those that it had in the graph of the call that
first brought it, if the calls for the file have brought it ever since. -/
theorem Updater.process_keeps_introduced (notDeleted : last.change.change ≠ .delete) {u₁ u₂ : Updater}
    {s₁ s₂ : Store} {delta : Delta} (hrun : u.processAll s calls = (u₁, s₁))
    (hlast : u₁.process last.directory last.change (s₁.atMoment last.now) = (.ok delta, u₂, s₂)) :
    ∃ f, last.outline? u.readers = some f ∧
      ∀ {id n}, s₂.node? id = .ok (some n) → n.isOwnedBy last.path = true →
        ∃ edges, s₂.edgesFrom id none none = .ok edges ∧ ∀ e ∈ edges, f.graph.hasEdge e.key = true ∧
          ∃ d, Introduces u.readers (calls ++ [last]) last.path e.key d ∧
            ∀ name : String, e.properties[name]? = d.properties[name]? := by
  obtain ⟨hends, hreflects⟩ := reflects_last fresh u calls last distinct
  rw [hrun] at hreflects hends
  rw [hlast] at hreflects hends
  obtain ⟨g, htarget⟩ := hends.mp ⟨delta, u₂, s₂, rfl⟩
  obtain ⟨c, hcarries, h⟩ := hreflects
  have hs := hcarries.shows
  have hpath : Paths (calls ++ [last]) last.path := ⟨last, List.mem_append_right _ (List.mem_singleton_self _), rfl⟩
  rcases target_cases htarget with ⟨hdelete, -⟩ | ⟨f, hf, -, rfl⟩
  · exact absurd hdelete notDeleted
  · have hgraph : graphsAfter u.readers (calls ++ [last]) last.path = f.graph := by
      rw [graphsAfter_append, List.foldl_cons, update_of_ok htarget, List.foldl_nil, setGraph_self]
    refine ⟨f, hf, fun {id n} hn howned => ?_⟩
    obtain ⟨keys, hkeys, hedges⟩ := hs.edgesFrom id none none
    refine ⟨_, hedges, fun e he => ?_⟩
    obtain ⟨key, hkey, hfound⟩ := List.mem_filterMap.mp he
    have hsource : key.source = id := by simpa using ((hkeys.mem_iff key).mp hkey).2
    rw [hs.node?, ← hsource] at hn
    rw [c.key_eq hfound, ← hgraph]
    exact h.introduces distinct hpath hfound (Except.ok.inj hn) howned

end

/-! ## A call that moves to another line -/

namespace LineMoved

/-- An updater for files in one language. -/
def updater : Updater := .new [⟨"python", [".py"], .standard⟩] .standard

/-- The file is read with a function `f` that calls `g` on a line. -/
def reading (change : Change) (line : String) (now : UInt64) : SyncCall :=
  let text := "\x7b\"functions\":[\x7b\"name\":\"f\",\"calls\":[\x7b\"name\":\"g\",\"line\":" ++ line ++ "\x7d]\x7d]\x7d"
  ⟨⟨⟨"a.py"⟩, change⟩,
    ⟨.ofList [(["a.py"], DirectoryEntry.file 0)], .ofList [(0, FileContent.bytes (Text.utf8 text))], 1⟩, now⟩

/-- First the call is on line 1. -/
def first : SyncCall := reading .create "1" 0

/-- Then it is on line 2. -/
def last : SyncCall := reading .modify "2" 1

/-- What the graph of a call says about the line on which `f` calls `g`. -/
def line? (call : SyncCall) : Option Int64 := do
  let g ← (call.target updater.readers).toOption
  let d ← g.edge? ⟨nodeId .function "f" (some "a.py"), nodeId .function "external.g" none, .calls⟩
  d.properties.int? "call_site"

theorem line?_first : line? first = some 1 := by decide +kernel

theorem line?_last : line? last = some 2 := by decide +kernel

theorem exists_of_line? {call : SyncCall} {n : Int64} (h : line? call = some n) :
    ∃ g d, call.target updater.readers = .ok g ∧
      g.edge? ⟨nodeId .function "f" (some "a.py"), nodeId .function "external.g" none, .calls⟩ = some d ∧
      d.properties.int? "call_site" = some n := by
  unfold line? at h
  obtain ⟨g, hg, hrest⟩ := Option.bind_eq_some_iff.mp h
  obtain ⟨d, hd, hline⟩ := Option.bind_eq_some_iff.mp hrest
  exact ⟨g, d, toOption_eq_some.mp hg, hd, hline⟩

theorem namesMade_eq : namesMade updater.readers ([first] ++ [last]) =
    [.ofFile "a.py", ⟨.function, some "a.py", "f"⟩, ⟨.function, none, "external.g"⟩,
      .ofFile "a.py", ⟨.function, some "a.py", "f"⟩, ⟨.function, none, "external.g"⟩] := by decide +kernel

theorem distinct : EntityName.Distinct (Made updater.readers ([first] ++ [last])) (Paths ([first] ++ [last])) := by
  rw [made_eq, paths_eq, namesMade_eq]
  exact .of_metNames (by decide +kernel)

/-- The function belongs to the file. -/
theorem made_caller : Made updater.readers ([first] ++ [last]) ⟨.function, some "a.py", "f"⟩ := by
  rw [made_eq, namesMade_eq]
  decide

end LineMoved

section

open LineMoved

/-- A function calls another, and then the call is on another line. -/
theorem Updater.process_keeps_introduced_lineMoved :
    let s := Store.table (.ofRows .inMemory .empty)
    ∃ delta u₂ s₂, (updater.processAll s [first]).1.process last.directory last.change
        ((updater.processAll s [first]).2.atMoment last.now) = (.ok delta, u₂, s₂) ∧
      ∃ f, last.outline? updater.readers = some f ∧
        ∀ {id n}, s₂.node? id = .ok (some n) → n.isOwnedBy last.path = true →
          ∃ edges, s₂.edgesFrom id none none = .ok edges ∧ ∀ e ∈ edges, f.graph.hasEdge e.key = true ∧
            ∃ d, Introduces updater.readers ([first] ++ [last]) last.path e.key d ∧
              ∀ name : String, e.properties[name]? = d.properties[name]? := by
  intro s
  have fresh : s.IsFresh .rows := .table .inMemory
  obtain ⟨g, -, htarget, -⟩ := exists_of_line? line?_last
  obtain ⟨delta, u₂, s₂, hlast⟩ := (reflects_last fresh updater [first] last distinct).1.mpr ⟨g, htarget⟩
  exact ⟨delta, u₂, s₂, hlast,
    process_keeps_introduced fresh updater [first] last distinct (by decide) (Prod.eta _).symm hlast⟩

/-- The stored edge of the call still says line 1, where the graph of the file says line 2. -/
theorem Updater.process_keeps_line :
    let s := Store.table (.ofRows .inMemory .empty)
    ∃ delta u₂ s₂ f d n edges e, (updater.processAll s [first]).1.process last.directory last.change
        ((updater.processAll s [first]).2.atMoment last.now) = (.ok delta, u₂, s₂) ∧
      last.outline? updater.readers = some f ∧
      s₂.node? (nodeId .function "f" (some "a.py")) = .ok (some n) ∧ n.isOwnedBy last.path = true ∧
      s₂.edgesFrom (nodeId .function "f" (some "a.py")) none none = .ok edges ∧ e ∈ edges ∧
      f.graph.edge? e.key = some d ∧ e.properties.int? "call_site" = some 1 ∧
      d.properties.int? "call_site" = some 2 := by
  intro s
  let key : EdgeKey := ⟨nodeId .function "f" (some "a.py"), nodeId .function "external.g" none, .calls⟩
  have fresh : s.IsFresh .rows := .table .inMemory
  have hpath : Paths ([first] ++ [last]) last.path := ⟨last, by simp, rfl⟩
  obtain ⟨g₁, d₁, hfirst, hd₁, hline₁⟩ := exists_of_line? line?_first
  obtain ⟨g₂, d₂, hlast, hd₂, hline₂⟩ := exists_of_line? line?_last
  obtain ⟨hends, hreflects⟩ := reflects_last fresh updater [first] last distinct
  obtain ⟨delta, u₂, s₂, hrun⟩ := hends.mpr ⟨g₂, hlast⟩
  rw [hrun] at hreflects
  obtain ⟨c, hcarries, h⟩ := hreflects
  have hs := hcarries.shows
  obtain ⟨hdelete, -⟩ | ⟨f, hf, -, rfl⟩ := target_cases hlast
  · cases hdelete
  -- The graphs of both calls have the edge.
  have hbefore : graphsAfter updater.readers [first] last.path = g₁ := by
    rw [graphsAfter, List.foldl_cons, update_of_ok hfirst]
    exact setGraph_self _ _ _
  have hafter : graphsAfter updater.readers ([first] ++ [last]) last.path = f.graph := by
    rw [graphsAfter_append, List.foldl_cons, update_of_ok hlast]
    exact setGraph_self _ _ _
  have hgraph : (graphsAfter updater.readers ([first] ++ [last]) last.path).hasEdge key = true := by
    rw [hafter, Graph.hasEdge_eq, hd₂]
    rfl
  have hthere : c.hasEdge key = true := h.inStep.edges.mpr ⟨_, hgraph⟩
  obtain ⟨e, he⟩ := Option.isSome_iff_exists.mp hthere
  obtain ⟨n, hn⟩ := Option.isSome_iff_exists.mp
    (h.inStep.nodes ((h.inStep.ofFile last.path).sound.source hgraph))
  have howned : n.isOwnedBy last.path = true :=
    (distinct.isOwnedBy_iff (h.inStep.bears distinct made_caller hn) made_caller hpath).mpr rfl
  -- So the first call introduced it.
  obtain ⟨-, d, hd, hsame⟩ := h.introduces distinct hpath he hn howned
  obtain ⟨g, hg, hfound⟩ := (hd.of_append (by rw [hbefore, Graph.hasEdge_eq, hd₁]; rfl)).of_single
  obtain rfl := Except.ok.inj (hfirst.symm.trans hg)
  obtain rfl := Option.some.inj (hd₁.symm.trans hfound)
  obtain ⟨keys, hkeys, hedges⟩ := hs.edgesFrom key.source none none
  refine ⟨delta, u₂, s₂, f, d₂, n, _, e, hrun, hf, by rw [hs.node?]; exact congrArg _ hn, howned, hedges, ?_, ?_, ?_,
    hline₂⟩
  · exact List.mem_filterMap.mpr ⟨key, (hkeys.mem_iff key).mpr ⟨hthere, by simp⟩, he⟩
  · rw [c.key_eq he]
    exact hd₂
  · rw [Properties.int?, hsame]
    exact hline₁

end

end ProgramGraph
