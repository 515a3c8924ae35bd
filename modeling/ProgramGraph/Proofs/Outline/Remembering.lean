import ProgramGraph.Proofs.Outline.Assembly

set_option autoImplicit false

/-! # Remembering changes no graph

An assembler remembers a callee under the path of a file and the name in a call, and not under the
functions that the file has. So what it remembers may be wrong for the next file at the path, and a
lookup after an assembly gives the callee in the assembled file, whatever functions it is given
(`Assembler.resolve_after_assemble`). A graph is right all the same: what was remembered is forgotten
first, and while one graph is assembled all calls are looked up among the same functions
(`FileOutline.Recalls`). So every assembler, whatever it was used for, gives the graph that comes of
looking up every call anew, and remembers the callees of this file and nothing else
(`Assembler.assemble_after`).
-/

namespace ProgramGraph

/-- A lookup remembers the callee that it finds, unless one is remembered. -/
theorem CalleeCache.getElem?_resolve (inFile : Std.TreeMap String String) (path name : String)
    (cache : CalleeCache) (key : CallKey) :
    (cache.resolve inFile path name).2[key]? =
      cache[key]?.or (if key = ⟨path, name⟩ then some (Callee.ofName inFile name) else none) := by
  unfold CalleeCache.resolve
  cases hfound : cache[(⟨path, name⟩ : CallKey)]? with
  | some callee =>
      by_cases hkey : key = ⟨path, name⟩
      · rw [hkey, hfound, Option.some_or]
      · rw [if_neg hkey, Option.or_none]
  | none =>
      rw [getElem?_inserted]
      by_cases hkey : key = ⟨path, name⟩
      · rw [if_pos hkey, if_pos hkey, hkey, hfound, Option.none_or]
      · rw [if_neg hkey, if_neg hkey, Option.or_none]

namespace FileOutline

variable (f : FileOutline)

/-! ## Looking up anew -/

/-- Puts in a call with its callee looked up anew. -/
def addCallAnew (g : Graph) (source : String) (call : CallOutline) : Graph :=
  if call.name.isEmpty then g
  else addCallOf (Callee.ofName (idsByName f.functionNodes) call.name) g source call

/-- The graph of the file, with all callees looked up anew. -/
def graphAnew : Graph :=
  let withCalls := f.callList.foldl (fun g (source, call) => f.addCallAnew g source call) f.skeleton
  f.imports.foldl f.addImport (f.baseList.foldl (f.addBase (idsByName f.classNodes)) withCalls)

variable {f}

/-- **One call** is put in as if its callee was looked up anew, and what is remembered stays right. -/
theorem Recalls.addCall {acc : Graph × CalleeCache} (h : f.Recalls acc.2) (source : String)
    (call : CallOutline) :
    (f.addCall (idsByName f.functionNodes) acc source call).1 = f.addCallAnew acc.1 source call ∧
      f.Recalls (f.addCall (idsByName f.functionNodes) acc source call).2 := by
  obtain ⟨hcallee, hrecalls⟩ := h.resolve call.name
  unfold FileOutline.addCall addCallAnew
  split
  · exact ⟨rfl, h⟩
  · exact ⟨congrArg (addCallOf · acc.1 source call) hcallee, hrecalls⟩

/-- **All calls** are put in as if their callees were looked up anew. -/
theorem addCalls_eq_anew (calls : List (String × CallOutline)) (acc : Graph × CalleeCache)
    (h : f.Recalls acc.2) :
    (calls.foldl (fun acc (call : String × CallOutline) =>
        f.addCall (idsByName f.functionNodes) acc call.1 call.2) acc).1 =
      calls.foldl (fun g (call : String × CallOutline) => f.addCallAnew g call.1 call.2) acc.1 := by
  induction calls generalizing acc with
  | nil => rfl
  | cons call rest ih =>
      obtain ⟨hgraph, hrecalls⟩ := h.addCall call.1 call.2
      rw [List.foldl_cons, List.foldl_cons, ← hgraph]
      exact ih _ hrecalls

/-- **The graph of a file** is the one with all callees looked up anew. -/
theorem graph_eq_graphAnew (f : FileOutline) : f.graph = f.graphAnew :=
  congrArg (fun withCalls =>
      f.imports.foldl f.addImport (f.baseList.foldl (f.addBase (idsByName f.classNodes)) withCalls))
    (addCalls_eq_anew f.callList (f.skeleton, ∅) f.recalls_empty)

/-! ## What is remembered -/

/-- The names of some calls that have one. -/
def namesOf (calls : List (String × CallOutline)) : List String :=
  (calls.map fun call => call.2.name).filter fun name => !name.isEmpty

/-- What is to be remembered of some calls in the file. -/
def remembered? (f : FileOutline) (calls : List (String × CallOutline)) (key : CallKey) :
    Option Callee :=
  if key.path = f.path ∧ key.name ∈ namesOf calls then
    some (Callee.ofName (idsByName f.functionNodes) key.name)
  else none

theorem mem_namesOf_cons {call : String × CallOutline} {rest : List (String × CallOutline)}
    {name : String} :
    name ∈ namesOf (call :: rest) ↔ name ∈ namesOf [call] ∨ name ∈ namesOf rest := by
  rw [← List.mem_append, ← List.singleton_append, namesOf, List.map_append, List.filter_append]
  rfl

theorem remembered?_cons (call : String × CallOutline) (rest : List (String × CallOutline))
    (key : CallKey) :
    f.remembered? (call :: rest) key = (f.remembered? [call] key).or (f.remembered? rest key) := by
  by_cases hcall : key.path = f.path ∧ key.name ∈ namesOf [call]
  · have hcalls : key.path = f.path ∧ key.name ∈ namesOf (call :: rest) :=
      ⟨hcall.1, mem_namesOf_cons.mpr (.inl hcall.2)⟩
    rw [remembered?, remembered?, if_pos hcall, if_pos hcalls, Option.some_or]
  · rw [remembered?, remembered?, if_neg hcall, Option.none_or, remembered?]
    refine if_congr (and_congr_right fun hpath => ?_) rfl rfl
    rw [mem_namesOf_cons, or_iff_right fun hname => hcall ⟨hpath, hname⟩]

theorem getElem?_addCall (acc : Graph × CalleeCache) (call : String × CallOutline) (key : CallKey) :
    (f.addCall (idsByName f.functionNodes) acc call.1 call.2).2[key]? =
      acc.2[key]?.or (f.remembered? [call] key) := by
  unfold addCall
  split
  · -- A call without a name is passed over, so nothing is remembered of it.
    rename_i hempty
    have hnames : namesOf [call] = [] := List.filter_cons_of_neg (by simp [hempty])
    simp [remembered?, hnames]
  · rename_i hnamed
    have hnames : namesOf [call] = [call.2.name] := List.filter_cons_of_pos (by simp [hnamed])
    refine (CalleeCache.getElem?_resolve ..).trans ?_
    rw [remembered?, hnames]
    obtain ⟨path, name⟩ := key
    simp only [CallKey.mk.injEq, List.mem_singleton]
    split
    · rename_i hkey
      rw [hkey.2]
    · rfl

/-- **What is remembered after some calls** is what was before, and the callees of these calls. -/
theorem getElem?_addCalls (calls : List (String × CallOutline)) (acc : Graph × CalleeCache)
    (key : CallKey) :
    (calls.foldl (fun acc (call : String × CallOutline) =>
        f.addCall (idsByName f.functionNodes) acc call.1 call.2) acc).2[key]? =
      acc.2[key]?.or (f.remembered? calls key) := by
  induction calls generalizing acc with
  | nil => simp [remembered?, namesOf]
  | cons call rest ih =>
      rw [List.foldl_cons, ih, getElem?_addCall, remembered?_cons call rest, Option.or_assoc]

end FileOutline

/-! ## Uses of an assembler -/

namespace Assembler

/-- What an assembler is used for. -/
inductive Use where
  | assemble (f : FileOutline)
  /-- Looks up a name among any functions. -/
  | resolve (inFile : Std.TreeMap String String) (path name : String)

/-- The assembler after a use. -/
def use (a : Assembler) : Use → Assembler
  | .assemble f => (a.assemble f).2
  | .resolve inFile path name => (a.resolve inFile path name).2

/-- An assembler remembers the callees of the file that it has assembled, and nothing else. -/
theorem cache_assemble (a : Assembler) (f : FileOutline) (key : CallKey) :
    (a.assemble f).2.cache[key]? = f.remembered? f.callList key := by
  refine (FileOutline.getElem?_addCalls f.callList (f.skeleton, ∅) key).trans ?_
  rw [Std.TreeMap.getElem?_emptyc, Option.none_or]

/-- After an assembly the callee of a call in the file is not looked up again, whatever functions are
given. -/
theorem resolve_after_assemble (a : Assembler) {f : FileOutline} {name : String}
    (hname : name ∈ FileOutline.namesOf f.callList) (inFile : Std.TreeMap String String) :
    ((a.assemble f).2.resolve inFile f.path name).1 =
      Callee.ofName (FileOutline.idsByName f.functionNodes) name := by
  have hfound : (a.assemble f).2.cache[(⟨f.path, name⟩ : CallKey)]? = some _ :=
    (cache_assemble a f ⟨f.path, name⟩).trans (if_pos ⟨rfl, hname⟩)
  show (CalleeCache.resolve inFile f.path name _).1 = _
  rw [CalleeCache.resolve, hfound]

/-- **Remembering changes no graph.** Whatever an assembler was used for, it gives the graph that a fresh
one gives, and that comes of looking up every call anew. It then remembers the callees of this file. -/
theorem assemble_after (uses : List Use) (f : FileOutline) :
    ((uses.foldl use fresh).assemble f).1 = (fresh.assemble f).1 ∧
      (fresh.assemble f).1 = f.graphAnew ∧
      ∀ key, ((uses.foldl use fresh).assemble f).2.cache[key]? = f.remembered? f.callList key :=
  ⟨rfl, f.graph_eq_graphAnew, cache_assemble _ f⟩

end Assembler

end ProgramGraph
