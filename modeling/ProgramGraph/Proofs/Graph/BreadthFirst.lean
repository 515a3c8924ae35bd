import Mathlib.Data.List.Nodup
import ProgramGraph.Proofs.Graph.Reachable
import ProgramGraph.Proofs.Graph.Walk

set_option autoImplicit false

/-! # Breadth first

A search that takes nodes from a queue, and lets each join the queue once, meets every node by a
shortest walk (`Front`). The reason is the order of the queue: what waits in it ascends by depth and
differs by one step at most, so whatever a taken node leads to was met no later than one step after it.
A bound on the depth then cuts off just the nodes that have no walk within it.

`IsBreadthFirst` says what order the nodes come in: by distance, and those of one distance by the first
node that leads to them. It holds of `Graph.bfs` for every graph that can come about
(`Graph.Reachable.bfs_isBreadthFirst`).
-/

namespace ProgramGraph

variable {leads : String → String → Prop} {start : String} {maxDepth : Option Nat}

/-! ## The queue -/

/-- Where a search stands that takes nodes from a queue: what has been taken and what waits, each with
the depth at which it was met. -/
structure Front (leads : String → String → Prop) (start : String) (maxDepth : Option Nat)
    (taken queue : List (String × Nat)) (seen : Std.TreeSet String) : Prop where
  mem_seen : ∀ id, id ∈ seen ↔ ∃ d, (id, d) ∈ taken ++ queue
  nodup : ((taken ++ queue).map Prod.fst).Nodup
  begins : (start, 0) ∈ taken ++ queue
  permits : ∀ {id d}, (id, d) ∈ taken ++ queue → Permits maxDepth d
  walk : ∀ {id d}, (id, d) ∈ taken ++ queue → Walk leads start d id
  /-- What a taken node leads to was met one step further on at the latest. -/
  closed : ∀ {a d b}, (a, d) ∈ taken → Permits maxDepth (d + 1) → leads a b →
    ∃ d' ≤ d + 1, (b, d') ∈ taken ++ queue
  sorted : (taken ++ queue).Pairwise fun x y => x.2 ≤ y.2
  /-- Nothing that was met lies more than one step beyond what waits. -/
  near : ∀ x ∈ queue, ∀ y ∈ taken ++ queue, y.2 ≤ x.2 + 1

namespace Front

variable {taken queue : List (String × Nat)} {seen after : Std.TreeSet String} {id : String} {d : Nat}
  {fresh : List String}

/-- At the beginning only the start waits. -/
theorem initial (leads : String → String → Prop) (start : String) (maxDepth : Option Nat) :
    Front leads start maxDepth [] [(start, 0)] ((∅ : Std.TreeSet String).insert start) where
  mem_seen id := by
    rw [Std.TreeSet.mem_insert, Std.LawfulEqCmp.compare_eq_iff_eq, or_iff_left Std.TreeSet.not_mem_emptyc]
    simp [eq_comm]
  nodup := List.nodup_singleton start
  begins := List.mem_singleton_self _
  permits hmem := by
    obtain ⟨rfl, rfl⟩ := Prod.mk.inj (List.mem_singleton.mp hmem)
    exact permits_zero
  walk hmem := by
    obtain ⟨rfl, rfl⟩ := Prod.mk.inj (List.mem_singleton.mp hmem)
    exact .start
  closed hmem := absurd hmem List.not_mem_nil
  sorted := List.pairwise_singleton _ _
  near x hx y hy := by
    obtain rfl := List.mem_singleton.mp hx
    obtain rfl := List.mem_singleton.mp hy
    exact Nat.le_succ _

/-- **One node is taken.** What it leads to and was not met before joins the queue. -/
theorem advance (h : Front leads start maxDepth taken ((id, d) :: queue) seen) (hnodup : fresh.Nodup)
    (hfresh : ∀ b ∈ fresh, b ∉ seen ∧ Permits maxDepth (d + 1) ∧ leads id b)
    (hafter : ∀ b, b ∈ after ↔ b ∈ seen ∨ b ∈ fresh)
    (hall : Permits maxDepth (d + 1) → ∀ b, leads id b → b ∈ seen ∨ b ∈ fresh) :
    Front leads start maxDepth (taken ++ [(id, d)]) (queue ++ fresh.map (·, d + 1)) after := by
  -- What was met after the step is what was met before it, followed by what joins.
  have hmet : (taken ++ [(id, d)]) ++ (queue ++ fresh.map (·, d + 1)) =
      (taken ++ (id, d) :: queue) ++ fresh.map (·, d + 1) := by simp
  have hmem : ∀ x, x ∈ (taken ++ [(id, d)]) ++ (queue ++ fresh.map (·, d + 1)) ↔
      x ∈ taken ++ (id, d) :: queue ∨ ∃ b ∈ fresh, (b, d + 1) = x := by
    intro x
    rw [hmet, List.mem_append, List.mem_map]
  have hhead : (id, d) ∈ taken ++ (id, d) :: queue := List.mem_append_right _ List.mem_cons_self
  have hbound : ∀ x ∈ taken ++ (id, d) :: queue, x.2 ≤ d + 1 := h.near (id, d) List.mem_cons_self
  have hold : ∀ x ∈ taken ++ (id, d) :: queue, x ∈ (taken ++ [(id, d)]) ++ (queue ++ fresh.map (·, d + 1)) :=
    fun x hx => (hmem x).mpr (.inl hx)
  have hnew : ∀ b ∈ fresh, (b, d + 1) ∈ (taken ++ [(id, d)]) ++ (queue ++ fresh.map (·, d + 1)) :=
    fun b hb => (hmem _).mpr (.inr ⟨b, hb, rfl⟩)
  constructor
  case mem_seen =>
    intro b
    rw [hafter, h.mem_seen]
    constructor
    · rintro (⟨d', hb⟩ | hb)
      · exact ⟨d', hold _ hb⟩
      · exact ⟨d + 1, hnew b hb⟩
    · rintro ⟨d', hb⟩
      rcases (hmem _).mp hb with hb | ⟨b', hb', heq⟩
      · exact .inl ⟨d', hb⟩
      · obtain ⟨rfl, -⟩ := Prod.mk.inj heq
        exact .inr hb'
  case nodup =>
    rw [hmet, List.map_append, map_fst_at]
    refine h.nodup.append hnodup fun b hb hb' => ?_
    obtain ⟨⟨b, d'⟩, hold, rfl⟩ := List.mem_map.mp hb
    exact (hfresh b hb').1 ((h.mem_seen b).mpr ⟨d', hold⟩)
  case begins => exact hold _ h.begins
  case permits =>
    intro b d' hb
    rcases (hmem _).mp hb with hb | ⟨b', hb', heq⟩
    · exact h.permits hb
    · obtain ⟨rfl, rfl⟩ := Prod.mk.inj heq
      exact (hfresh b' hb').2.1
  case walk =>
    intro b d' hb
    rcases (hmem _).mp hb with hb | ⟨b', hb', heq⟩
    · exact h.walk hb
    · obtain ⟨rfl, rfl⟩ := Prod.mk.inj heq
      exact .step (h.walk hhead) (hfresh b' hb').2.2
  case closed =>
    intro a d' b ha hpermits hleads
    rcases List.mem_append.mp ha with ha | ha
    · obtain ⟨d'', hle, hb⟩ := h.closed ha hpermits hleads
      exact ⟨d'', hle, hold _ hb⟩
    · obtain ⟨rfl, rfl⟩ := Prod.mk.inj (List.mem_singleton.mp ha)
      rcases hall hpermits b hleads with hb | hb
      · -- Met before, and so at most one step beyond what is taken now.
        obtain ⟨d'', hb⟩ := (h.mem_seen b).mp hb
        exact ⟨d'', hbound _ hb, hold _ hb⟩
      · exact ⟨d' + 1, Nat.le_refl _, hnew b hb⟩
  case sorted =>
    -- What joins is one step further on, and nothing that was met is further than that.
    rw [hmet]
    exact ascends_append_level h.sorted hbound (fun b => b) fresh
  case near =>
    have hwaits : ∀ x ∈ queue, d ≤ x.2 := (List.pairwise_cons.mp (List.pairwise_append.mp h.sorted).2.1).1
    rw [hmet]
    exact near_append_level hwaits hbound (fun b => b) (fun b => b) fresh

/-- Nothing joins the queue where the node leads nowhere within the bound. -/
theorem advance_idle (h : Front leads start maxDepth taken ((id, d) :: queue) seen)
    (hidle : Permits maxDepth (d + 1) → ∀ b, ¬leads id b) :
    Front leads start maxDepth (taken ++ [(id, d)]) queue seen := by
  have hfront : Front leads start maxDepth (taken ++ [(id, d)]) (queue ++ [].map (·, d + 1)) seen :=
    h.advance List.nodup_nil (fun b hb => absurd hb List.not_mem_nil)
      (fun b => (or_iff_left List.not_mem_nil).symm) fun hpermits b hb => absurd hb (hidle hpermits b)
  rwa [List.map_nil, List.append_nil] at hfront

/-- Where the bound lets it, all that the node leads to is discovered. -/
theorem advance_discover (h : Front leads start maxDepth taken ((id, d) :: queue) seen) {targets : List String}
    (hpermits : Permits maxDepth (d + 1)) (htargets : ∀ b, b ∈ targets ↔ leads id b) :
    Front leads start maxDepth (taken ++ [(id, d)])
      (queue ++ (Graph.discover seen targets).1.map (·, d + 1)) (Graph.discover seen targets).2 := by
  refine h.advance Graph.nodup_discover (fun b hb => ?_) (fun b => ?_) fun _ b hb => ?_
  · obtain ⟨hb, hnew⟩ := Graph.mem_discover.mp hb
    exact ⟨hnew, hpermits, (htargets b).mp hb⟩
  · rw [Graph.mem_discover_seen, Graph.mem_discover]
    by_cases hb : b ∈ seen <;> simp [hb]
  · rw [Graph.mem_discover, htargets]
    by_cases hseen : b ∈ seen <;> simp [hseen, hb]

/-- What waits has not been taken. -/
theorem not_taken (h : Front leads start maxDepth taken ((id, d) :: queue) seen) : id ∉ taken.map Prod.fst := by
  have hnodup := h.nodup
  rw [List.map_append, List.map_cons] at hnodup
  intro hid
  exact (List.nodup_append.mp hnodup).2.2 id hid id List.mem_cons_self rfl

/-- What has not been seen when a node is taken within the bound, no node before it leads to. -/
theorem not_leads (h : Front leads start maxDepth taken ((id, d) :: queue) seen)
    (hpermits : Permits maxDepth (d + 1)) {b : String} (hb : b ∉ seen) : ∀ c ∈ taken.map Prod.fst, ¬leads c b := by
  intro c hc hleads
  obtain ⟨⟨c, d'⟩, hmem, rfl⟩ := List.mem_map.mp hc
  -- What was taken before lies no deeper, so the bound let it lead further too.
  have hle : d' ≤ d := (List.pairwise_append.mp h.sorted).2.2 _ hmem _ List.mem_cons_self
  obtain ⟨d'', -, hmet⟩ := h.closed hmem (hpermits.mono (by omega)) hleads
  exact hb ((h.mem_seen b).mpr ⟨d'', hmet⟩)

/-- **Where nothing waits** every walk within the bound was met, by one no longer. -/
theorem exists_taken (h : Front leads start maxDepth taken [] seen) {n : Nat} (hwalk : Walk leads start n id)
    (hn : Permits maxDepth n) : ∃ d ≤ n, (id, d) ∈ taken := by
  have hclosed := @h.closed
  have hbegins := h.begins
  rw [List.append_nil] at hbegins
  simp only [List.append_nil] at hclosed
  induction hwalk with
  | start => exact ⟨0, Nat.le_refl 0, hbegins⟩
  | step before hleads ih =>
      obtain ⟨d, hd, hmem⟩ := ih (hn.mono (Nat.le_succ _))
      obtain ⟨d', hd', hmem'⟩ := hclosed hmem (hn.mono (by omega)) hleads
      exact ⟨d', by omega, hmem'⟩

/-- What was taken are the nodes that have a walk within the bound. -/
theorem mem_taken_iff (h : Front leads start maxDepth taken [] seen) :
    id ∈ taken.map Prod.fst ↔ ∃ n, Permits maxDepth n ∧ Walk leads start n id := by
  constructor
  · intro hid
    obtain ⟨⟨id, d⟩, hmem, rfl⟩ := List.mem_map.mp hid
    have hmet := List.mem_append_left [] hmem
    exact ⟨d, h.permits hmet, h.walk hmet⟩
  · rintro ⟨n, hn, hwalk⟩
    obtain ⟨d, -, hmem⟩ := h.exists_taken hwalk hn
    exact List.mem_map.mpr ⟨_, hmem, rfl⟩

/-- A node was met at its distance. -/
theorem isDistance (h : Front leads start maxDepth taken [] seen) (hmem : (id, d) ∈ taken) :
    IsDistance leads start d id where
  walk := h.walk (List.mem_append_left [] hmem)
  le {m} hwalk := by
    have hnodup := h.nodup
    rw [List.append_nil] at hnodup
    by_cases hle : d ≤ m
    · exact hle
    · -- A shorter walk would be within the bound too, and no node was met twice.
      have hpermits := (h.permits (List.mem_append_left [] hmem)).mono (Nat.le_of_not_le hle)
      obtain ⟨d', hd', hmem'⟩ := h.exists_taken hwalk hpermits
      have heq := List.inj_on_of_nodup_map hnodup hmem hmem' rfl
      obtain ⟨-, rfl⟩ := Prod.mk.inj heq
      exact hd'

end Front

/-! ## The order -/

/-- The first node of the order that leads to the other. -/
def IsFirstParent (leads : String → String → Prop) (order : List String) (a b : String) : Prop :=
  ∃ before after, order = before ++ a :: after ∧ leads a b ∧ ∀ c ∈ before, ¬leads c b

theorem IsFirstParent.append {order : List String} {a b : String} (h : IsFirstParent leads order a b)
    (more : List String) : IsFirstParent leads (order ++ more) a b := by
  obtain ⟨before, after, rfl, hleads, hfirst⟩ := h
  exact ⟨before, after ++ more, by simp, hleads, hfirst⟩

/-- After the start come groups, one for each parent in their order: the nodes that it is the first to
lead to, ascending. -/
def Groups (leads : String → String → Prop) (start : String) (parents order : List String) : Prop :=
  ∃ children : String → List String, order = start :: parents.flatMap children ∧
    ∀ a ∈ parents, (children a).Pairwise (· < ·) ∧ ∀ b ∈ children a, IsFirstParent leads parents a b

theorem groups_start : Groups leads start [] [start] :=
  ⟨fun _ => [], rfl, fun _ ha => absurd ha List.not_mem_nil⟩

/-- A new parent has the group of what none before it leads to. -/
theorem Groups.append {parents order fresh : List String} {id : String} (h : Groups leads start parents order)
    (hid : id ∉ parents) (hascends : fresh.Pairwise (· < ·))
    (hfirst : ∀ b ∈ fresh, leads id b ∧ ∀ c ∈ parents, ¬leads c b) :
    Groups leads start (parents ++ [id]) (order ++ fresh) := by
  obtain ⟨children, rfl, hgroup⟩ := h
  -- The new parent gets its own group, and all others keep theirs.
  let children' (a : String) : List String := if a = id then fresh else children a
  have hnew : children' id = fresh := if_pos rfl
  have hold : ∀ a ∈ parents, children' a = children a := by
    intro a ha
    apply if_neg
    rintro rfl
    exact hid ha
  refine ⟨children', ?_, fun a ha => ?_⟩
  · rw [List.flatMap_append, List.flatMap_singleton, hnew, List.flatMap_congr hold, List.cons_append]
  · rcases List.mem_append.mp ha with ha | ha
    · rw [hold a ha]
      obtain ⟨hchildren, hparent⟩ := hgroup a ha
      exact ⟨hchildren, fun b hb => (hparent b hb).append [id]⟩
    · obtain rfl := List.mem_singleton.mp ha
      rw [hnew]
      exact ⟨hascends, fun b hb => ⟨parents, [], rfl, hfirst b hb⟩⟩

/-- What it is to list nodes breadth first: those that lie within the bound, each once, the nearer before
the further, and those found from one node after those found from an earlier one. -/
structure IsBreadthFirst (leads : String → String → Prop) (start : String) (maxDepth : Option Nat)
    (order : List String) : Prop where
  head : order.head? = some start
  nodup : order.Nodup
  mem_iff : ∀ {id}, id ∈ order ↔ ∃ n, IsDistance leads start n id ∧ Permits maxDepth n
  by_distance : order.Pairwise fun a b =>
    ∀ m n, IsDistance leads start m a → IsDistance leads start n b → m ≤ n
  grouped : Groups leads start order order

/-- The order has what any walk within the bound leads to. -/
theorem IsBreadthFirst.mem_iff_walk {order : List String} {id : String}
    (h : IsBreadthFirst leads start maxDepth order) :
    id ∈ order ↔ ∃ n, Permits maxDepth n ∧ Walk leads start n id := by
  rw [h.mem_iff]
  constructor
  · rintro ⟨n, hdistance, hn⟩
    exact ⟨n, hn, hdistance.walk⟩
  · rintro ⟨n, hn, hwalk⟩
    obtain ⟨m, hm, hdistance⟩ := hwalk.exists_isDistance
    exact ⟨m, hdistance, hn.mono hm⟩

theorem Front.isBreadthFirst {taken : List (String × Nat)} {seen : Std.TreeSet String}
    (h : Front leads start maxDepth taken [] seen)
    (hgroups : Groups leads start (taken.map Prod.fst) (taken.map Prod.fst)) :
    IsBreadthFirst leads start maxDepth (taken.map Prod.fst) where
  head := by
    obtain ⟨children, horder, -⟩ := hgroups
    rw [horder]
    rfl
  nodup := by simpa using h.nodup
  mem_iff {id} := by
    constructor
    · intro hid
      obtain ⟨⟨id, d⟩, hmem, rfl⟩ := List.mem_map.mp hid
      exact ⟨d, h.isDistance hmem, h.permits (List.mem_append_left [] hmem)⟩
    · rintro ⟨n, hn, hpermits⟩
      exact h.mem_taken_iff.mpr ⟨n, hpermits, hn.walk⟩
  by_distance := by
    -- What was taken lies in the order of the depths, and each depth is the distance.
    have hsorted := h.sorted
    rw [List.append_nil] at hsorted
    refine List.pairwise_map.mpr (hsorted.imp_of_mem fun {x y} hx hy hle m n hm hn => ?_)
    have hxm := (h.isDistance hx).unique hm
    have hyn := (h.isDistance hy).unique hn
    omega
  grouped := hgroups

/-! ## The search -/

variable {next : String → List String} {left : List String → Nat}

theorem walkBreadth_cons_atBound {steps d : Nat} {id : String} {queue : List (String × Nat)}
    {seen : Std.TreeSet String} (h : ¬Permits maxDepth (d + 1)) :
    Graph.walkBreadth next maxDepth (steps + 1) ((id, d) :: queue) seen =
      id :: Graph.walkBreadth next maxDepth steps queue seen := by
  rw [Graph.walkBreadth, if_pos (atBound_iff.mpr h)]

theorem walkBreadth_cons {steps d : Nat} {id : String} {queue : List (String × Nat)}
    {seen : Std.TreeSet String} (h : Permits maxDepth (d + 1)) :
    Graph.walkBreadth next maxDepth (steps + 1) ((id, d) :: queue) seen =
      id :: Graph.walkBreadth next maxDepth steps
        (queue ++ (Graph.discover seen (next id)).1.map (·, d + 1)) (Graph.discover seen (next id)).2 := by
  rw [Graph.walkBreadth, if_neg fun hbound => atBound_iff.mp hbound h]

/-- **The search** goes on until nothing waits, and what it takes stands in groups. -/
theorem Front.walkBreadth_eq (hf : Follows next leads left) {steps : Nat} {taken queue : List (String × Nat)}
    {seen : Std.TreeSet String} (h : Front leads start maxDepth taken queue seen)
    (hgroups : Groups leads start (taken.map Prod.fst) ((taken ++ queue).map Prod.fst))
    (hsteps : queue.length + left (taken.map Prod.fst) ≤ steps) :
    ∃ more after, Graph.walkBreadth next maxDepth steps queue seen = more.map Prod.fst ∧
      Front leads start maxDepth (taken ++ more) [] after ∧
      Groups leads start ((taken ++ more).map Prod.fst) ((taken ++ more).map Prod.fst) := by
  -- Each step takes one node off the queue; what joins it was left to be answered before.
  induction steps generalizing taken queue seen with
  | zero =>
      obtain rfl : queue = [] := List.eq_nil_of_length_eq_zero (by omega)
      exact ⟨[], seen, rfl, by simpa using h, by simpa using hgroups⟩
  | succ steps ih =>
      match queue with
      | [] => exact ⟨[], seen, rfl, by simpa using h, by simpa using hgroups⟩
      | (id, d) :: queue =>
          have hid := h.not_taken
          have hleft := hf.left_append hid
          have htaken : (taken ++ [(id, d)]).map Prod.fst = taken.map Prod.fst ++ [id] := by simp
          rw [List.length_cons] at hsteps
          by_cases hpermits : Permits maxDepth (d + 1)
          · have hfresh : ∀ b, b ∈ (Graph.discover seen (next id)).1 ↔ leads id b ∧ b ∉ seen := fun b => by
              rw [Graph.mem_discover, hf.mem_iff]
            have hascends : (Graph.discover seen (next id)).1.Pairwise (· < ·) :=
              ascends_of_nodup ((hf.ascends id).sublist Graph.discover_sublist) Graph.nodup_discover
            have hlength : (Graph.discover seen (next id)).1.length ≤ (next id).length :=
              Graph.discover_sublist.length_le
            have hgroups' : Groups leads start ((taken ++ [(id, d)]).map Prod.fst)
                ((taken ++ [(id, d)] ++ (queue ++ (Graph.discover seen (next id)).1.map (·, d + 1))).map Prod.fst) := by
              rw [htaken, ← List.append_assoc, ← List.append_cons, List.map_append, map_fst_at]
              apply hgroups.append hid hascends
              intro b hb
              have hnew := (hfresh b).mp hb
              exact ⟨hnew.1, h.not_leads hpermits hnew.2⟩
            have hsteps' : (queue ++ (Graph.discover seen (next id)).1.map (·, d + 1)).length +
                left ((taken ++ [(id, d)]).map Prod.fst) ≤ steps := by
              rw [List.length_append, List.length_map, htaken]
              omega
            obtain ⟨more, after, hrun, hfront, hend⟩ :=
              ih (h.advance_discover hpermits fun b => hf.mem_iff) hgroups' hsteps'
            refine ⟨(id, d) :: more, after, ?_, by simpa using hfront, by simpa using hend⟩
            rw [walkBreadth_cons hpermits, hrun, List.map_cons]
          · -- At the bound the group of the node is empty.
            have hgroups' := hgroups.append hid List.Pairwise.nil fun b hb => absurd hb List.not_mem_nil
            have hsteps' : queue.length + left ((taken ++ [(id, d)]).map Prod.fst) ≤ steps := by
              rw [htaken]
              omega
            obtain ⟨more, after, hrun, hfront, hend⟩ :=
              ih (h.advance_idle fun hp => absurd hp hpermits) (by simpa using hgroups') hsteps'
            refine ⟨(id, d) :: more, after, ?_, by simpa using hfront, by simpa using hend⟩
            rw [walkBreadth_cons_atBound hpermits, hrun, List.map_cons]

namespace Graph

variable {g : Graph}

theorem IsIndexed.exists_bfs (h : g.IsIndexed) (hstart : g.hasNode start = true) (direction : Direction)
    (maxDepth : Option Nat) (kinds : Option (List EdgeKind)) :
    ∃ order, g.bfs start direction maxDepth kinds = .ok order ∧
      IsBreadthFirst (g.Leads direction kinds) start maxDepth order := by
  have hsteps : [(start, 0)].length + g.left direction [] ≤ g.stepBound := by
    rw [left_nil, stepBound, List.length_singleton]
    omega
  obtain ⟨order, seen, hrun, hfront, hgroups⟩ :=
    (Front.initial (g.Leads direction kinds) start maxDepth).walkBreadth_eq (h.follows direction kinds)
      groups_start hsteps
  refine ⟨order.map Prod.fst, ?_, hfront.isBreadthFirst hgroups⟩
  rw [bfs, if_pos hstart, hrun]

/-- **Breadth first search is exact.** From a node of a graph that can come about it lists the nodes within
the bound, the nearer ones first, and nodes of one distance by the first node that leads to them. -/
theorem Reachable.bfs_isBreadthFirst (h : g.Reachable) (hstart : g.hasNode start = true) (direction : Direction)
    (maxDepth : Option Nat) (kinds : Option (List EdgeKind)) :
    ∃ order, g.bfs start direction maxDepth kinds = .ok order ∧
      IsBreadthFirst (g.Leads direction kinds) start maxDepth order :=
  h.isIndexed.exists_bfs hstart direction maxDepth kinds

/-- Two edges to one node, a node that leads to itself, one that leads back to the start, one beyond the
bound, and an edge of another relation: of the nodes two steps away the greater comes first, since its
parent does. -/
theorem Reachable.bfs_isBreadthFirst_wayBack :
    let node (id : String) := Node.ofCore id (.module id id)
    let edge (source target : String) (kind : EdgeKind) := Edge.ofCore source target (.plain kind)
    let g : Graph := [edge "a" "c" .calls, edge "a" "b" .calls, edge "a" "b" .imports, edge "b" "b" .calls,
      edge "b" "e" .calls, edge "c" "e" .calls, edge "c" "d" .imports, edge "d" "a" .calls,
      edge "d" "f" .calls, edge "a" "f" .contains].foldl Graph.attach
        ((∅ : Graph).addNodes [node "a", node "b", node "c", node "d", node "e", node "f"])
    let kinds := some [EdgeKind.calls, EdgeKind.imports]
    ∃ order, g.bfs "a" .outgoing (some 2) kinds = .ok order ∧
      IsBreadthFirst (g.Leads .outgoing kinds) "a" (some 2) order ∧ order = ["a", "b", "c", "e", "d"] := by
  intro node edge g kinds
  have hreach : g.Reachable := (Reachable.empty.addNodes _).attachAll _
  have hstart : g.hasNode "a" = true := by decide +kernel
  obtain ⟨order, hrun, horder⟩ := hreach.bfs_isBreadthFirst hstart .outgoing (some 2) kinds
  have hvalue : (g.bfs "a" .outgoing (some 2) kinds).toOption = some ["a", "b", "c", "e", "d"] := by
    decide +kernel
  rw [hrun] at hvalue
  exact ⟨order, hrun, horder, Option.some.inj hvalue⟩

end Graph

end ProgramGraph
