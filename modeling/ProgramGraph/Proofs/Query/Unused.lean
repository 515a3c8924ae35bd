import Mathlib.Data.List.Basic
import ProgramGraph.Proofs.Query.LeftFold
import ProgramGraph.Query.Lookup

set_option autoImplicit false

/-! # Functions that nobody calls

To find the functions that nobody calls, the functions are listed and from each of them the edges of its
calls are read; what these lead to is called. So an edge counts only if a stored function is where it
begins. Edges of calls may begin elsewhere, at a module or where no node is stored, and a function that only
such edges lead to is reported although it is called (`Query.unusedFunctions_reports_called`).

`Query.unusedFunctions_table` says what is reported for rows that can be read, and when this is what nobody
calls: just if every function that is called is called by a stored function too, entry points apart.
-/

namespace ProgramGraph

open ProgramGraph.Text

namespace Rows

/-- An edge of a call leads to the identifier, from where the callers are looked for. -/
def CalledFrom (rows : Rows) (callers : String → Prop) (id : String) : Prop :=
  ∃ e, rows.HoldsEdge e ∧ e.kind = .calls ∧ e.target = id ∧ callers e.source

/-- A function with the identifier is stored. -/
def HoldsFunction (rows : Rows) (id : String) : Prop := ∃ n, rows.HoldsNode n ∧ n.kind = .function ∧ n.id = id

/-- The function is stored, and its name begins neither with `main` nor with two low lines. -/
structure HoldsInner (rows : Rows) (n : Node) : Prop where
  stored : rows.HoldsNode n
  kind : n.kind = .function
  not_main : ¬"main".toList <+: n.name.toList
  not_reserved : ¬"__".toList <+: n.name.toList

theorem CalledFrom.mono {rows : Rows} {callers others : String → Prop} {id : String}
    (h : rows.CalledFrom callers id) (himp : ∀ a, callers a → others a) : rows.CalledFrom others id := by
  obtain ⟨e, he, hkind, htarget, hsource⟩ := h
  exact ⟨e, he, hkind, htarget, himp e.source hsource⟩

/-- The stored edges of calls that begin at an identifier. -/
def callsOf (rows : Rows) (id : String) : List Edge :=
  rows.edgeList fun key => key.source = id && ((none : Option String).all fun t => key.target = t) &&
    (some EdgeKind.calls).all fun k => key.kind = k

theorem mem_callsOf {rows : Rows} {id : String} {e : Edge} :
    e ∈ rows.callsOf id ↔ rows.HoldsEdge e ∧ e.source = id ∧ e.kind = .calls := by
  rw [callsOf, mem_edgeList, Option.all_none, Option.all_some, Bool.and_true, Bool.and_eq_true, decide_eq_true_eq,
    decide_eq_true_eq]
  rfl

end Rows

namespace Query

theorem isEntryPoint_iff {n : Node} :
    isEntryPoint n = true ↔ "main".toList <+: n.name.toList ∨ "__".toList <+: n.name.toList := by
  unfold isEntryPoint
  rw [Bool.or_eq_true, List.isPrefixOf_iff_prefix, List.isPrefixOf_iff_prefix]

/-- The targets of some edges are entered one after the other. -/
def enterTargets (acc : Std.TreeSet String) (edges : List Edge) : Std.TreeSet String :=
  edges.foldl (fun found e => found.insert e.target) acc

theorem mem_enterTargets {acc : Std.TreeSet String} {edges : List Edge} {id : String} :
    id ∈ enterTargets acc edges ↔ id ∈ acc ∨ ∃ e ∈ edges, e.target = id :=
  mem_insertedAll Edge.target

section Table

variable {t : Table} (hstate : t.state.IsReadable) (hdecodes : t.rows.Decodes)

include hstate hdecodes

/-- What some functions call is read from the edges of their calls. -/
theorem exists_called (functions : List Node) :
    ∃ called : Std.TreeSet String,
      functions.foldlM (fun (acc : Std.TreeSet String) n => do
          let edges ← Store.edgesFrom (.table t) n.id none (some .calls)
          pure (enterTargets acc edges)) ∅ = (.ok called : Outcome (Std.TreeSet String)) ∧
        ∀ id, id ∈ called ↔ t.rows.CalledFrom (fun a => ∃ n ∈ functions, n.id = a) id := by
  -- No read fails, so the targets of all calls are entered one after the other.
  have hread : (fun (acc : Std.TreeSet String) (n : Node) => do
      let edges ← Store.edgesFrom (.table t) n.id none (some .calls)
      pure (enterTargets acc edges) : Std.TreeSet String → Node → Outcome (Std.TreeSet String)) =
      fun (acc : Std.TreeSet String) (n : Node) => pure (enterTargets acc (t.rows.callsOf n.id)) := by
    funext acc n
    have hedges : Store.edgesFrom (.table t) n.id none (some .calls) = .ok (t.rows.callsOf n.id) :=
      t.edgesFrom_eq hstate hdecodes n.id none (some .calls)
    rw [hedges]
    rfl
  refine ⟨enterTargets ∅ (functions.flatMap fun n : Node => t.rows.callsOf n.id), ?_, fun id => ?_⟩
  · rw [hread, enterTargets, List.foldl_flatMap]
    exact List.foldlM_pure
  · rw [mem_enterTargets, or_iff_right Std.TreeSet.not_mem_emptyc]
    constructor
    · rintro ⟨e, he, htarget⟩
      obtain ⟨n, hn, he⟩ := List.mem_flatMap.mp he
      obtain ⟨hstored, hsource, hkind⟩ := Rows.mem_callsOf.mp he
      exact ⟨e, hstored, hkind, htarget, n, hn, hsource.symm⟩
    · rintro ⟨e, hstored, hkind, htarget, n, hn, hsource⟩
      exact ⟨e, List.mem_flatMap.mpr ⟨n, hn, Rows.mem_callsOf.mpr ⟨hstored, hsource.symm, hkind⟩⟩, htarget⟩

/-- **What is reported**: the functions that no stored function calls. -/
theorem exists_unusedFunctions (hbound : t.rows.nodeCount (some .function) ≤ scanLimit) :
    ∃ found : List Node, unusedFunctions (.table t) = .ok found ∧
      (found.Pairwise fun a b => utf8 a.id < utf8 b.id) ∧
      ∀ n, n ∈ found ↔ t.rows.HoldsInner n ∧ ¬t.rows.CalledFrom t.rows.HoldsFunction n.id := by
  have hscan : scan (.table t) .function [] = .ok (t.rows.nodeList (some .function)) := by
    refine (scan_eq hstate hdecodes t.rows.admits_nil hbound).trans (congrArg Except.ok ?_)
    exact List.filter_eq_self.mpr fun _ _ => rfl
  have hmem : ∀ n, n ∈ t.rows.nodeList (some .function) ↔ t.rows.HoldsNode n ∧ n.kind = .function := by
    intro n
    rw [Rows.mem_nodeList]
    simp
  obtain ⟨called, hrun, hcalled⟩ := exists_called hstate hdecodes (t.rows.nodeList (some .function))
  -- The functions that were listed are all that are stored.
  have hlisted : (fun a => ∃ n ∈ t.rows.nodeList (some .function), n.id = a) = t.rows.HoldsFunction := by
    funext a
    simp only [hmem, Rows.HoldsFunction, and_assoc]
  rw [hlisted] at hcalled
  refine ⟨(t.rows.nodeList (some .function)).filter fun n => !called.contains n.id && !isEntryPoint n,
    ?_, ?_, fun n => ?_⟩
  · unfold unusedFunctions
    exact bind_eq_ok.mpr ⟨_, hscan, bind_eq_ok.mpr ⟨called, hrun, rfl⟩⟩
  · exact List.Pairwise.filter _ ((t.rows.pairwise_nodeList _).imp fun h => utf8_lt_utf8.mpr h)
  · rw [List.mem_filter, hmem, Bool.and_eq_true, Bool.not_eq_true', Bool.not_eq_true', ← Bool.not_eq_true,
      ← Bool.not_eq_true, ← Std.TreeSet.mem_iff_contains, hcalled, isEntryPoint_iff, not_or]
    constructor
    · rintro ⟨⟨hstored, hkind⟩, hnot, hmain, hreserved⟩
      exact ⟨⟨hstored, hkind, hmain, hreserved⟩, hnot⟩
    · rintro ⟨hinner, hnot⟩
      exact ⟨⟨hinner.stored, hinner.kind⟩, hnot, hinner.not_main, hinner.not_reserved⟩

end Table

/-- **Functions that nobody calls.** From rows that can be read, with no more functions than a scan takes, the
functions are reported by identifier that no stored function calls, entry points apart. They are the functions
that nobody calls just if each function that is called at all is called by a stored function. -/
theorem unusedFunctions_table {t : Table} (hstate : t.state.IsReadable) (hdecodes : t.rows.Decodes)
    (hbound : t.rows.nodeCount (some .function) ≤ scanLimit) :
    ∃ found : List Node, unusedFunctions (.table t) = .ok found ∧
      (found.Pairwise fun a b => utf8 a.id < utf8 b.id) ∧
      (∀ n, n ∈ found ↔ t.rows.HoldsInner n ∧ ¬t.rows.CalledFrom t.rows.HoldsFunction n.id) ∧
      ((∀ n, n ∈ found ↔ t.rows.HoldsInner n ∧ ¬t.rows.CalledFrom (fun _ => True) n.id) ↔
        ∀ n, t.rows.HoldsInner n → t.rows.CalledFrom (fun _ => True) n.id →
          t.rows.CalledFrom t.rows.HoldsFunction n.id) := by
  obtain ⟨found, hrun, hascends, hfound⟩ := exists_unusedFunctions hstate hdecodes hbound
  refine ⟨found, hrun, hascends, hfound, ?_⟩
  constructor
  · intro hall n hinner hcalled
    by_cases hfunction : t.rows.CalledFrom t.rows.HoldsFunction n.id
    · exact hfunction
    · -- Then the node is reported, and so nobody calls it.
      have hreported : n ∈ found := (hfound n).mpr ⟨hinner, hfunction⟩
      exact absurd hcalled ((hall n).mp hreported).2
  · intro hall n
    rw [hfound]
    refine and_congr_right fun hinner => not_congr ?_
    exact ⟨fun hcalled => hcalled.mono fun _ _ => trivial, hall n hinner⟩

/-- A module that calls a function, which calls another one. -/
def moduleThatCalls : Table :=
  let function (name : String) := Node.ofCore name (.function name name 1 2 none [] none false)
  .ofRows .inMemory (((((Rows.empty.putNode (function "f")).putNode (function "g")).putNode
    (.ofCore "m" (.module "m" "m"))).putEdge (.ofCore "m" "f" (.plain .calls))).putEdge
      (.ofCore "f" "g" (.plain .calls)))

theorem unusedFunctions_table_moduleThatCalls :
    ∃ found : List Node, unusedFunctions (.table moduleThatCalls) = .ok found ∧
      (found.Pairwise fun a b => utf8 a.id < utf8 b.id) ∧
      (∀ n, n ∈ found ↔ moduleThatCalls.rows.HoldsInner n ∧
        ¬moduleThatCalls.rows.CalledFrom moduleThatCalls.rows.HoldsFunction n.id) ∧
      ((∀ n, n ∈ found ↔ moduleThatCalls.rows.HoldsInner n ∧
          ¬moduleThatCalls.rows.CalledFrom (fun _ => True) n.id) ↔
        ∀ n, moduleThatCalls.rows.HoldsInner n → moduleThatCalls.rows.CalledFrom (fun _ => True) n.id →
          moduleThatCalls.rows.CalledFrom moduleThatCalls.rows.HoldsFunction n.id) :=
  unusedFunctions_table (.inl rfl) (by decide +kernel) (by decide +kernel)

/-- **A function that is called is reported** if only a module calls it. -/
theorem unusedFunctions_reports_called :
    (unusedFunctions (.table moduleThatCalls)).toOption.map (List.map Node.id) = some ["f"] ∧
      moduleThatCalls.rows.edges.keys = [⟨"f", "g", .calls⟩, ⟨"m", "f", .calls⟩] := by
  constructor
  · simp only [unusedFunctions, Store.edgesFrom, Table.edgesFrom, Rows.edgesFrom, Rows.edgesBy, Rows.edgeRows,
      Rows.foldr_edges]
    decide +kernel
  · decide +kernel

end Query

end ProgramGraph
