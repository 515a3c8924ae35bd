import Mathlib.Data.List.Induction
import ProgramGraph.Proofs.Graph.BreadthFirst

set_option autoImplicit false

/-! # Depth first

A depth first search goes on from the latest node that still leads to one not met, and takes the least
of what that node leads to (`IsNext`). With a stack that holds what the nodes on the way lead to, the
latest on top, the next node is the first on the stack that was not met (`Stacked`). `IsDepthFirst`
describes the whole order, with the depth at which each node was met, and `Graph.dfs` keeps to it.

Each node is met once, at the depth of the way that the search has come. That need not be a shortest way,
and a node met at the bound is not followed any further. So within a bound the search can miss nodes
that lie within it: it finds the nodes that a breadth first search finds just if nothing is missed behind
a node that was met at the bound and has a shorter walk (`IsDepthFirst.covers_iff`). Without a bound it
finds them all.
-/

namespace ProgramGraph

variable {leads : String → String → Prop} {start : String} {maxDepth : Option Nat}

/-! ## The order -/

/-- The node leads, within the bound, to one that is not among those met. -/
def IsOpen (leads : String → String → Prop) (maxDepth : Option Nat) (met : List String) (x : String × Nat) :
    Prop :=
  Permits maxDepth (x.2 + 1) ∧ ∃ b, leads x.1 b ∧ b ∉ met

/-- The least of what a node leads to that was not met, one step beyond it. -/
structure IsLeastNew (leads : String → String → Prop) (maxDepth : Option Nat) (met : List String)
    (x y : String × Nat) : Prop where
  permits : Permits maxDepth (x.2 + 1)
  depth : y.2 = x.2 + 1
  follows : leads x.1 y.1
  new : y.1 ∉ met
  least : ∀ b, leads x.1 b → b ∉ met → y.1 ≤ b

/-- The next node after those met: it follows on the latest of them that is open. -/
def IsNext (leads : String → String → Prop) (maxDepth : Option Nat) (met : List (String × Nat))
    (y : String × Nat) : Prop :=
  ∃ earlier x later, met = earlier ++ x :: later ∧ IsLeastNew leads maxDepth (met.map Prod.fst) x y ∧
    ∀ z ∈ later, ¬IsOpen leads maxDepth (met.map Prod.fst) z

/-- What it is to list nodes depth first, each with the depth at which it was met. -/
structure IsDepthFirst (leads : String → String → Prop) (start : String) (maxDepth : Option Nat)
    (trail : List (String × Nat)) : Prop where
  head : trail.head? = some (start, 0)
  next : ∀ {met y rest}, trail = met ++ y :: rest → met ≠ [] → IsNext leads maxDepth met y
  closed : ∀ x ∈ trail, ¬IsOpen leads maxDepth (trail.map Prod.fst) x

namespace IsDepthFirst

variable {trail : List (String × Nat)} {id : String} {d n : Nat}

/-- What holds of the start alone and is kept by each further node holds of the trail. -/
theorem induction {motive : List (String × Nat) → Prop} (h : IsDepthFirst leads start maxDepth trail)
    (begins : motive [(start, 0)])
    (next : ∀ met y, motive met → IsNext leads maxDepth met y → motive (met ++ [y])) : motive trail := by
  -- The trail is reached through its beginnings, so the induction is on the end of a beginning.
  have hall : ∀ met rest, met ≠ [] → trail = met ++ rest → motive met := by
    intro met
    induction met using List.reverseRecOn with
    | nil => exact fun _ hne => absurd rfl hne
    | append_singleton met y ih =>
        intro rest _ htrail
        rw [List.append_assoc, List.singleton_append] at htrail
        by_cases hmet : met = []
        · subst hmet
          have hhead := h.head
          rw [htrail] at hhead
          obtain rfl := Option.some.inj hhead
          exact begins
        · exact next met y (ih (y :: rest) hmet htrail) (h.next htrail hmet)
  apply hall trail [] ?_ (List.append_nil trail).symm
  rintro rfl
  cases h.head

/-- No node is met twice. -/
theorem nodup (h : IsDepthFirst leads start maxDepth trail) : (trail.map Prod.fst).Nodup := by
  apply h.induction (List.nodup_singleton start)
  intro met y hmet hnext
  obtain ⟨_, x, _, -, hleast, -⟩ := hnext
  rw [List.map_append, List.map_singleton]
  exact List.nodup_append_comm.mp (List.nodup_cons.mpr ⟨hleast.new, hmet⟩)

/-- Each node is met by a walk, and within the bound. -/
theorem walk (h : IsDepthFirst leads start maxDepth trail) :
    ∀ x ∈ trail, Permits maxDepth x.2 ∧ Walk leads start x.2 x.1 := by
  apply h.induction
  · intro x hx
    obtain rfl := List.mem_singleton.mp hx
    exact ⟨permits_zero, .start⟩
  · intro met y hmet hnext x hx
    rcases List.mem_append.mp hx with hx | hx
    · exact hmet x hx
    · obtain rfl := List.mem_singleton.mp hx
      obtain ⟨earlier, p, later, hsplit, hleast, -⟩ := hnext
      have hp : p ∈ met := hsplit ▸ List.mem_append_right earlier List.mem_cons_self
      rw [hleast.depth]
      exact ⟨hleast.permits, .step (hmet p hp).2 hleast.follows⟩

/-- What a node leads to within the bound is met. -/
theorem mem_of_leads (h : IsDepthFirst leads start maxDepth trail) {a b : String} (ha : (a, d) ∈ trail)
    (hpermits : Permits maxDepth (d + 1)) (hleads : leads a b) : b ∈ trail.map Prod.fst := by
  by_cases hb : b ∈ trail.map Prod.fst
  · exact hb
  · exact absurd ⟨hpermits, b, hleads, hb⟩ (h.closed (a, d) ha)

/-- **Where nothing is missed.** All that lies within the bound is met just if this holds behind the nodes
that were met at the bound, as far as a shorter walk leads to them. -/
theorem covers_iff (h : IsDepthFirst leads start maxDepth trail) :
    (∀ id, (∃ n, Permits maxDepth n ∧ Walk leads start n id) → id ∈ trail.map Prod.fst) ↔
      ∀ a d n b, (a, d) ∈ trail → ¬Permits maxDepth (d + 1) → Walk leads start n a →
        Permits maxDepth (n + 1) → leads a b → b ∈ trail.map Prod.fst := by
  constructor
  · intro hall a d n b _ _ hwalk hpermits hleads
    exact hall b ⟨n + 1, hpermits, .step hwalk hleads⟩
  · intro hbehind id hid
    obtain ⟨n, hn, hwalk⟩ := hid
    -- Along the walk each node is met, if at another depth than the walk has.
    induction hwalk with
    | start => exact List.mem_map.mpr ⟨(start, 0), List.mem_of_mem_head? h.head, rfl⟩
    | step before hleads ih =>
        obtain ⟨⟨a, d⟩, ha, rfl⟩ := List.mem_map.mp (ih (hn.mono (Nat.le_succ _)))
        by_cases hpermits : Permits maxDepth (d + 1)
        · exact h.mem_of_leads ha hpermits hleads
        · exact hbehind a d _ _ ha hpermits before hn hleads

end IsDepthFirst

/-! ## The stack -/

/-- The stack holds, from the latest node that was taken to the earliest, what the bound lets it lead to:
in ascending order, and at least what has not been met. -/
inductive Stacked (leads : String → String → Prop) (maxDepth : Option Nat) (met : List String) :
    List (String × Nat) → List (String × Nat) → Prop where
  | nil : Stacked leads maxDepth met [] []
  | cons {x : String × Nat} {taken stack : List (String × Nat)} {ids : List String}
      (below : Stacked leads maxDepth met taken stack) (ascends : ids.Pairwise (· ≤ ·))
      (leads_of_mem : ∀ b ∈ ids, Permits maxDepth (x.2 + 1) ∧ leads x.1 b)
      (mem_of_leads : ∀ b, Permits maxDepth (x.2 + 1) → leads x.1 b → b ∉ met → b ∈ ids) :
      Stacked leads maxDepth met (x :: taken) (ids.map (·, x.2 + 1) ++ stack)

namespace Stacked

variable {met met' : List String} {taken stack : List (String × Nat)} {id : String} {d : Nat}

/-- When more is met, less has to be on the stack. -/
theorem mono (h : Stacked leads maxDepth met taken stack) (hsub : met ⊆ met') :
    Stacked leads maxDepth met' taken stack := by
  induction h with
  | nil => exact .nil
  | cons _ ascends leads_of_mem mem_of_leads ih =>
      exact .cons ih ascends leads_of_mem fun b hpermits hleads hb =>
        mem_of_leads b hpermits hleads fun hmet => hb (hsub hmet)

/-- What has been met may go from the top. -/
theorem pop (h : Stacked leads maxDepth met taken ((id, d) :: stack)) (hid : id ∈ met) :
    Stacked leads maxDepth met taken stack := by
  generalize hall : (id, d) :: stack = whole at h
  induction h generalizing stack with
  | nil => cases hall
  | @cons x taken rest ids below ascends leads_of_mem mem_of_leads ih =>
      cases ids with
      | nil => exact @Stacked.cons leads maxDepth met x taken stack [] (ih hall) ascends leads_of_mem mem_of_leads
      | cons b ids =>
          obtain ⟨heq, rfl⟩ := List.cons.inj hall
          obtain ⟨rfl, rfl⟩ := Prod.mk.inj heq
          refine .cons below (List.pairwise_cons.mp ascends).2
            (fun c hc => leads_of_mem c (List.mem_cons_of_mem _ hc)) fun c hpermits hleads hc => ?_
          rcases List.mem_cons.mp (mem_of_leads c hpermits hleads hc) with rfl | hmem
          · exact absurd hid hc
          · exact hmem

/-- **The top of the stack**, if it has not been met, is the least of what the latest open node leads to. -/
theorem top (h : Stacked leads maxDepth met taken ((id, d) :: stack)) (hid : id ∉ met) :
    ∃ later x earlier, taken = later ++ x :: earlier ∧ IsLeastNew leads maxDepth met x (id, d) ∧
      ∀ z ∈ later, ¬IsOpen leads maxDepth met z := by
  generalize hall : (id, d) :: stack = whole at h
  induction h generalizing stack with
  | nil => cases hall
  | @cons x taken rest ids below ascends leads_of_mem mem_of_leads ih =>
      cases ids with
      | nil =>
          -- Nothing is left of this node, so it is not open.
          obtain ⟨later, p, earlier, rfl, hleast, hlater⟩ := ih hall
          refine ⟨x :: later, p, earlier, rfl, hleast, fun z hz => ?_⟩
          rcases List.mem_cons.mp hz with rfl | hz
          · rintro ⟨hz, b, hzb, hb⟩
            exact absurd (mem_of_leads b hz hzb hb) List.not_mem_nil
          · exact hlater z hz
      | cons b ids =>
          obtain ⟨heq, -⟩ := List.cons.inj hall
          obtain ⟨rfl, rfl⟩ := Prod.mk.inj heq
          obtain ⟨hpermits, hleads⟩ := leads_of_mem id List.mem_cons_self
          have hleast : ∀ c, leads x.1 c → c ∉ met → id ≤ c := by
            intro c hc hnew
            rcases List.mem_cons.mp (mem_of_leads c hpermits hc hnew) with rfl | hmem
            · exact String.le_refl c
            · exact (List.pairwise_cons.mp ascends).1 c hmem
          exact ⟨[], x, taken, rfl, ⟨hpermits, rfl, hleads, hid, hleast⟩, fun z hz => absurd hz List.not_mem_nil⟩

/-- Where nothing is on the stack no node is open. -/
theorem not_isOpen (h : Stacked leads maxDepth met taken []) : ∀ x ∈ taken, ¬IsOpen leads maxDepth met x := by
  generalize hall : ([] : List (String × Nat)) = whole at h
  induction h with
  | nil => exact fun x hx => absurd hx List.not_mem_nil
  | @cons x taken rest ids below ascends leads_of_mem mem_of_leads ih =>
      obtain ⟨hids, rfl⟩ := List.append_eq_nil_iff.mp hall.symm
      obtain rfl := List.map_eq_nil_iff.mp hids
      intro z hz
      rcases List.mem_cons.mp hz with rfl | hz
      · rintro ⟨hpermits, b, hleads, hb⟩
        exact absurd (mem_of_leads b hpermits hleads hb) List.not_mem_nil
      · exact ih rfl z hz

end Stacked

/-! ## The search -/

/-- Where a search stands that takes nodes from a stack. -/
structure Pile (leads : String → String → Prop) (start : String) (maxDepth : Option Nat)
    (taken stack : List (String × Nat)) (visited : Std.TreeSet String) : Prop where
  mem_visited : ∀ id, id ∈ visited ↔ id ∈ taken.map Prod.fst
  head : taken.head? = some (start, 0)
  next : ∀ {met y rest}, taken = met ++ y :: rest → met ≠ [] → IsNext leads maxDepth met y
  stacked : Stacked leads maxDepth (taken.map Prod.fst) taken.reverse stack

namespace Pile

variable {taken stack : List (String × Nat)} {visited : Std.TreeSet String} {id : String} {d : Nat}
  {ids : List String}

/-- What was visited goes from the top. -/
theorem pop (h : Pile leads start maxDepth taken ((id, d) :: stack) visited) (hid : id ∈ visited) :
    Pile leads start maxDepth taken stack visited where
  mem_visited := h.mem_visited
  head := h.head
  next := h.next
  stacked := h.stacked.pop ((h.mem_visited id).mp hid)

/-- The top, if it was not visited, is the next node. -/
theorem isNext (h : Pile leads start maxDepth taken ((id, d) :: stack) visited) (hid : id ∉ visited) :
    IsNext leads maxDepth taken (id, d) := by
  have hnew : id ∉ taken.map Prod.fst := fun hmem => hid ((h.mem_visited id).mpr hmem)
  obtain ⟨later, x, earlier, htaken, hleast, hlater⟩ := h.stacked.top hnew
  have hsplit : taken = earlier.reverse ++ x :: later.reverse := by
    simpa using congrArg List.reverse htaken
  exact ⟨earlier.reverse, x, later.reverse, hsplit, hleast, fun z hz => hlater z (List.mem_reverse.mp hz)⟩

/-- **One node is taken.** What it leads to within the bound goes on the stack, as far as it is new. -/
theorem push (h : Pile leads start maxDepth taken ((id, d) :: stack) visited) (hid : id ∉ visited)
    (hascends : ids.Pairwise (· ≤ ·)) (hleads : ∀ b ∈ ids, Permits maxDepth (d + 1) ∧ leads id b)
    (hall : ∀ b, Permits maxDepth (d + 1) → leads id b → b ∉ visited.insert id → b ∈ ids) :
    Pile leads start maxDepth (taken ++ [(id, d)]) (ids.map (·, d + 1) ++ stack) (visited.insert id) := by
  have htaken : (taken ++ [(id, d)]).map Prod.fst = taken.map Prod.fst ++ [id] := by simp
  have hvisited : ∀ b, b ∈ visited.insert id ↔ b ∈ taken.map Prod.fst ++ [id] := by
    intro b
    rw [Std.TreeSet.mem_insert, Std.LawfulEqCmp.compare_eq_iff_eq, h.mem_visited, List.mem_append,
      List.mem_singleton, or_comm, eq_comm]
  have hne : taken ≠ [] := by
    rintro rfl
    cases h.head
  constructor
  case mem_visited =>
    intro b
    rw [htaken]
    exact hvisited b
  case head =>
    rw [List.head?_append_of_ne_nil _ hne]
    exact h.head
  case next =>
    intro met y rest hsplit hmet
    -- The node is an earlier one, or the one just taken.
    rcases List.eq_nil_or_concat rest with rfl | ⟨rest, last, rfl⟩
    · obtain ⟨rfl, hy⟩ := List.append_inj' hsplit rfl
      obtain rfl := List.singleton_inj.mp hy
      exact h.isNext hid
    · rw [List.concat_eq_append, ← List.cons_append, ← List.append_assoc] at hsplit
      obtain ⟨rfl, -⟩ := List.append_inj' hsplit rfl
      exact h.next rfl hmet
  case stacked =>
    rw [htaken, List.reverse_append]
    have hbelow : Stacked leads maxDepth (taken.map Prod.fst ++ [id]) taken.reverse stack :=
      (h.stacked.mono (List.subset_append_left _ [id])).pop (List.mem_append_right _ (List.mem_singleton_self id))
    refine .cons hbelow hascends hleads fun b hpermits hb hnew => hall b hpermits hb fun hmem => hnew ?_
    exact (hvisited b).mp hmem

/-- When the start has been taken, what it leads to is on the stack. -/
theorem first (hascends : ids.Pairwise (· ≤ ·)) (hleads : ∀ b ∈ ids, Permits maxDepth (0 + 1) ∧ leads start b)
    (hall : ∀ b, Permits maxDepth (0 + 1) → leads start b →
      b ∉ (∅ : Std.TreeSet String).insert start → b ∈ ids) :
    Pile leads start maxDepth [(start, 0)] (ids.map (·, 0 + 1)) ((∅ : Std.TreeSet String).insert start) := by
  have hvisited : ∀ b, b ∈ (∅ : Std.TreeSet String).insert start ↔ b ∈ [start] := by
    intro b
    rw [Std.TreeSet.mem_insert, Std.LawfulEqCmp.compare_eq_iff_eq, or_iff_left Std.TreeSet.not_mem_emptyc,
      List.mem_singleton, eq_comm]
  constructor
  case mem_visited => exact hvisited
  case head => rfl
  case next =>
    intro met y rest hsplit hmet
    -- A single node has no further node behind it.
    have hlength : 1 = met.length + (rest.length + 1) := by simpa using congrArg List.length hsplit
    exact absurd (List.eq_nil_of_length_eq_zero (by omega)) hmet
  case stacked =>
    rw [← List.append_nil (ids.map _)]
    exact .cons .nil hascends hleads fun b hpermits hb hnew =>
      hall b hpermits hb fun hmem => hnew ((hvisited b).mp hmem)

/-- Where nothing is on the stack the whole order has been listed. -/
theorem isDepthFirst (h : Pile leads start maxDepth taken [] visited) :
    IsDepthFirst leads start maxDepth taken where
  head := h.head
  next := h.next
  closed x hx := h.stacked.not_isOpen x (List.mem_reverse.mpr hx)

end Pile

section Search

variable {next : String → List String} {left : List String → Nat} {steps d : Nat} {id : String}
  {stack : List (String × Nat)} {visited : Std.TreeSet String}

/-- What goes on the stack when a node is taken. -/
def above (next : String → List String) (maxDepth : Option Nat) (visited : Std.TreeSet String) (id : String)
    (d : Nat) : List String :=
  if Graph.atBound maxDepth d then [] else (next id).filter fun b => !(visited.insert id).contains b

theorem mem_above (hf : Follows next leads left) {b : String} :
    b ∈ above next maxDepth visited id d ↔
      Permits maxDepth (d + 1) ∧ leads id b ∧ b ∉ visited.insert id := by
  unfold above
  by_cases hpermits : Permits maxDepth (d + 1)
  · rw [if_neg fun hbound => atBound_iff.mp hbound hpermits, List.mem_filter, hf.mem_iff,
      Bool.not_eq_true', ← Bool.not_eq_true, ← Std.TreeSet.mem_iff_contains]
    exact (and_iff_right hpermits).symm
  · rw [if_pos (atBound_iff.mpr hpermits)]
    simp [hpermits]

theorem leads_of_mem_above (hf : Follows next leads left) :
    ∀ b ∈ above next maxDepth visited id d, Permits maxDepth (d + 1) ∧ leads id b := by
  intro b hb
  have habove := (mem_above hf).mp hb
  exact ⟨habove.1, habove.2.1⟩

theorem mem_above_of_leads (hf : Follows next leads left) :
    ∀ b, Permits maxDepth (d + 1) → leads id b → b ∉ visited.insert id →
      b ∈ above next maxDepth visited id d := by
  intro b hpermits hleads hnew
  exact (mem_above hf).mpr ⟨hpermits, hleads, hnew⟩

theorem above_sublist : (above next maxDepth visited id d).Sublist (next id) := by
  unfold above
  split
  · exact List.nil_sublist _
  · exact List.filter_sublist

theorem walkDepth_cons_visited (hid : id ∈ visited) :
    Graph.walkDepth next maxDepth (steps + 1) ((id, d) :: stack) visited =
      Graph.walkDepth next maxDepth steps stack visited := by
  rw [Graph.walkDepth, if_pos (Std.TreeSet.mem_iff_contains.mp hid)]

theorem walkDepth_cons (hid : id ∉ visited) :
    Graph.walkDepth next maxDepth (steps + 1) ((id, d) :: stack) visited =
      id :: Graph.walkDepth next maxDepth steps
        ((above next maxDepth visited id d).map (·, d + 1) ++ stack) (visited.insert id) := by
  rw [Graph.walkDepth, if_neg fun hcontains => hid (Std.TreeSet.mem_iff_contains.mpr hcontains), above]
  split <;> rfl

/-- **The search** goes on until nothing is on the stack. -/
theorem Pile.walkDepth_eq (hf : Follows next leads left) {taken : List (String × Nat)}
    (h : Pile leads start maxDepth taken stack visited)
    (hsteps : stack.length + left (taken.map Prod.fst) ≤ steps) :
    ∃ more, Graph.walkDepth next maxDepth steps stack visited = more.map Prod.fst ∧
      IsDepthFirst leads start maxDepth (taken ++ more) := by
  -- Each step takes one node off the stack; what goes on it was left to be answered before.
  induction steps generalizing taken stack visited with
  | zero =>
      obtain rfl : stack = [] := List.eq_nil_of_length_eq_zero (by omega)
      exact ⟨[], rfl, by simpa using h.isDepthFirst⟩
  | succ steps ih =>
      match stack with
      | [] => exact ⟨[], rfl, by simpa using h.isDepthFirst⟩
      | (id, d) :: stack =>
          rw [List.length_cons] at hsteps
          by_cases hid : id ∈ visited
          · obtain ⟨more, hrun, hend⟩ := ih (h.pop hid) (by omega)
            exact ⟨more, (walkDepth_cons_visited hid).trans hrun, hend⟩
          · have hleft := hf.left_append fun hmem => hid ((h.mem_visited id).mpr hmem)
            have hlength : (above next maxDepth visited id d).length ≤ (next id).length :=
              above_sublist.length_le
            have hpile := h.push hid ((hf.ascends id).sublist above_sublist) (leads_of_mem_above hf)
              (mem_above_of_leads hf)
            have htaken : (taken ++ [(id, d)]).map Prod.fst = taken.map Prod.fst ++ [id] := by simp
            have hsteps' : ((above next maxDepth visited id d).map (·, d + 1) ++ stack).length +
                left ((taken ++ [(id, d)]).map Prod.fst) ≤ steps := by
              rw [htaken, List.length_append, List.length_map]
              omega
            obtain ⟨more, hrun, hend⟩ := ih hpile hsteps'
            refine ⟨(id, d) :: more, ?_, by simpa using hend⟩
            rw [walkDepth_cons hid, hrun, List.map_cons]

end Search

namespace Graph

variable {g : Graph}

theorem IsIndexed.exists_dfs (h : g.IsIndexed) (hstart : g.hasNode start = true) (direction : Direction)
    (maxDepth : Option Nat) (kinds : Option (List EdgeKind)) :
    ∃ trail, g.dfs start direction maxDepth kinds = .ok (trail.map Prod.fst) ∧
      IsDepthFirst (g.Leads direction kinds) start maxDepth trail := by
  have hf := h.follows direction kinds
  let ids := above (g.neighbors · direction kinds) maxDepth ∅ start 0
  have hfirst : Pile (g.Leads direction kinds) start maxDepth [(start, 0)] (ids.map (·, 0 + 1))
      ((∅ : Std.TreeSet String).insert start) :=
    .first ((hf.ascends start).sublist above_sublist) (leads_of_mem_above hf) (mem_above_of_leads hf)
  -- Each edge is left at most once, so as many steps as there are edges suffice.
  have hsteps : (ids.map (·, 0 + 1)).length + g.left direction ([(start, 0)].map Prod.fst) ≤ g.edges.size :=
    calc (ids.map (·, 0 + 1)).length + g.left direction [start]
        = ids.length + g.left direction [start] := by rw [List.length_map]
      _ ≤ (g.neighbors start direction kinds).length + g.left direction [start] :=
        Nat.add_le_add_right above_sublist.length_le _
      _ ≤ g.left direction [] := hf.left_append List.not_mem_nil
      _ = g.edges.size := g.left_nil direction
  obtain ⟨more, hrun, hend⟩ := hfirst.walkDepth_eq hf hsteps
  refine ⟨(start, 0) :: more, ?_, hend⟩
  rw [dfs, if_pos hstart, stepBound, walkDepth_cons Std.TreeSet.not_mem_emptyc, List.append_nil, hrun,
    List.map_cons]

/-- **The two searches.** From a node of a graph that can come about both end, and the depth first one lists
each node once and only such as the other lists too. They list the same nodes just if none is missed behind
those that the depth first search met at the bound though a shorter walk leads to them; so without a bound
they always do. -/
theorem Reachable.dfs_same_iff (h : g.Reachable) (hstart : g.hasNode start = true) (direction : Direction)
    (maxDepth : Option Nat) (kinds : Option (List EdgeKind)) :
    ∃ broad trail, g.bfs start direction maxDepth kinds = .ok broad ∧
      g.dfs start direction maxDepth kinds = .ok (trail.map Prod.fst) ∧
      IsDepthFirst (g.Leads direction kinds) start maxDepth trail ∧ (trail.map Prod.fst).Nodup ∧
      (∀ id, id ∈ broad ↔ ∃ n, Permits maxDepth n ∧ Walk (g.Leads direction kinds) start n id) ∧
      (∀ id, id ∈ trail.map Prod.fst → id ∈ broad) ∧
      ((∀ id, id ∈ trail.map Prod.fst ↔ id ∈ broad) ↔
        ∀ a d n b, (a, d) ∈ trail → ¬Permits maxDepth (d + 1) →
          Walk (g.Leads direction kinds) start n a → Permits maxDepth (n + 1) →
          g.Leads direction kinds a b → b ∈ trail.map Prod.fst) ∧
      (maxDepth = none → ∀ id, id ∈ trail.map Prod.fst ↔ id ∈ broad) := by
  obtain ⟨broad, hbfs, hbroad⟩ := h.isIndexed.exists_bfs hstart direction maxDepth kinds
  obtain ⟨trail, hdfs, htrail⟩ := h.isIndexed.exists_dfs hstart direction maxDepth kinds
  have hsub : ∀ id, id ∈ trail.map Prod.fst → id ∈ broad := by
    intro id hid
    obtain ⟨x, hx, rfl⟩ := List.mem_map.mp hid
    exact hbroad.mem_iff_walk.mpr ⟨x.2, htrail.walk x hx⟩
  have hsame : (∀ id, id ∈ trail.map Prod.fst ↔ id ∈ broad) ↔
      ∀ id, (∃ n, Permits maxDepth n ∧ Walk (g.Leads direction kinds) start n id) →
        id ∈ trail.map Prod.fst := by
    constructor
    · intro hall id hid
      exact (hall id).mpr (hbroad.mem_iff_walk.mpr hid)
    · intro hall id
      exact ⟨hsub id, fun hid => hall id (hbroad.mem_iff_walk.mp hid)⟩
  refine ⟨broad, trail, hbfs, hdfs, htrail, htrail.nodup, fun id => hbroad.mem_iff_walk, hsub,
    hsame.trans htrail.covers_iff, ?_⟩
  -- Without a bound no node is met at it.
  rintro rfl
  apply (hsame.trans htrail.covers_iff).mpr
  intro a d n b _ hbound
  exact absurd permits_none hbound

/-- A node that is met at the bound, though an edge leads straight to it: what it leads to is met all the
same. -/
theorem Reachable.dfs_same_iff_wayBack :
    let node (id : String) := Node.ofCore id (.module id id)
    let edge (source target : String) := Edge.ofCore source target (.plain .calls)
    let g : Graph := [edge "a" "b", edge "b" "c", edge "a" "c", edge "c" "b", edge "c" "a"].foldl Graph.attach
      ((∅ : Graph).addNodes [node "a", node "b", node "c"])
    ∃ broad trail, g.bfs "a" .outgoing (some 2) none = .ok broad ∧
      g.dfs "a" .outgoing (some 2) none = .ok (trail.map Prod.fst) ∧
      IsDepthFirst (g.Leads .outgoing none) "a" (some 2) trail ∧ trail.map Prod.fst = ["a", "b", "c"] ∧
      broad = ["a", "b", "c"] ∧ ∀ a d n b, (a, d) ∈ trail → ¬Permits (some 2) (d + 1) →
        Walk (g.Leads .outgoing none) "a" n a → Permits (some 2) (n + 1) → g.Leads .outgoing none a b →
        b ∈ trail.map Prod.fst := by
  intro node edge g
  have hreach : g.Reachable := (Reachable.empty.addNodes _).attachAll _
  have hstart : g.hasNode "a" = true := by decide +kernel
  obtain ⟨broad, trail, hbfs, hdfs, htrail, -, -, -, hsame, -⟩ :=
    hreach.dfs_same_iff hstart .outgoing (some 2) none
  have hbroad : (g.bfs "a" .outgoing (some 2) none).toOption = some ["a", "b", "c"] := by decide +kernel
  have hdeep : (g.dfs "a" .outgoing (some 2) none).toOption = some ["a", "b", "c"] := by decide +kernel
  rw [hbfs] at hbroad
  rw [hdfs] at hdeep
  have hbroad := Option.some.inj hbroad
  have hdeep := Option.some.inj hdeep
  refine ⟨broad, trail, hbfs, hdfs, htrail, hdeep, hbroad, hsame.mp fun id => ?_⟩
  rw [hdeep, hbroad]

/-- A node that is met at the bound, though an edge leads straight to it: what it leads to lies within the
bound, and is missed. -/
theorem dfs_misses_behind_detour :
    let node (id : String) := Node.ofCore id (.module id id)
    let edge (source target : String) := Edge.ofCore source target (.plain .calls)
    let g : Graph := [edge "a" "b", edge "b" "c", edge "a" "c", edge "c" "d"].foldl Graph.attach
      ((∅ : Graph).addNodes [node "a", node "b", node "c", node "d"])
    g.Reachable ∧ (g.bfs "a" .outgoing (some 2) none).toOption = some ["a", "b", "c", "d"] ∧
      (g.dfs "a" .outgoing (some 2) none).toOption = some ["a", "b", "c"] := by
  intro node edge g
  refine ⟨(Reachable.empty.addNodes _).attachAll _, ?_, ?_⟩
  · decide +kernel
  · decide +kernel

end Graph

end ProgramGraph
