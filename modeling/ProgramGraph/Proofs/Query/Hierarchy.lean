import Mathlib.Data.List.Nodup
import Mathlib.Data.List.Perm.Subperm
import ProgramGraph.Proofs.Graph.Walk
import ProgramGraph.Proofs.Query.LeftFold
import ProgramGraph.Proofs.Store.TableContent
import ProgramGraph.Query.Lookup

set_option autoImplicit false

/-! # Hierarchies of classes

A class derives from a base class if edges of inheritance lead there, from class to class. The search for
the classes below a base follows these edges backwards, but what it keeps of a class it has found is the
name and not the identifier: at every further level an edge counts if the identifier of its target ends with the
name. So it finds the classes that are chained to the base by their names (`Rows.DerivesByName`), each once and
the nearer ones first.

That these are the classes that derive from the base is another matter. An edge to a class counts also for every
class whose name is the end of that identifier, and a class that is found under an identifier which does not end
with its name leads no further. `Query.hierarchy_table` says when neither does any harm: the classes that derive
from the base are found just if no such edge leads astray and none is missed. It can lead astray
(`Query.hierarchy_reports_unrelated`).

The search is a queue of names with their depths. `Lookups` is what it keeps: depths ascend along the queue, and
a name waits at the least depth at which it was met, or was looked up there.
-/

namespace ProgramGraph

open ProgramGraph.Text

namespace Query

/-! ## Chains -/

/-- So many links lead from the class down to where chains begin. -/
inductive Chain (begins : Node → Prop) (link : Node → Node → Prop) : Nat → Node → Prop where
  /-- The class begins a chain. -/
  | direct {n : Node} (h : begins n) : Chain begins link 1 n
  /-- The class is linked to one that has a chain. -/
  | through {k : Nat} {n m : Node} (rest : Chain begins link k m) (h : link n m) : Chain begins link (k + 1) n

namespace Chain

variable {begins : Node → Prop} {link other : Node → Node → Prop} {k bound : Nat} {n : Node}

theorem mono (h : Chain begins link k n) (himp : ∀ a b j, Chain begins link j b → link a b → other a b) :
    Chain begins other k n := by
  induction h with
  | direct hbegins => exact .direct hbegins
  | through rest hlink ih => exact .through ih (himp _ _ _ rest hlink)

/-- The first link of a chain decides. -/
theorem of_first_link {p : Node → Prop} (h : Chain begins link k n) (hk : k ≤ bound + 1)
    (hdirect : ∀ a, begins a → p a)
    (hthrough : ∀ a b j, j ≤ bound → Chain begins link j b → link a b → p a) : p n := by
  cases h with
  | direct hbegins => exact hdirect n hbegins
  | through rest hlink => exact hthrough n _ _ (Nat.le_of_succ_le_succ hk) rest hlink

end Chain

/-! ## The search -/

/-- The class is listed with a base class that the name matches. -/
def DerivesIn (classes : List Derivation) (n : Node) (name : String) : Prop :=
  ∃ c ∈ classes, c.node = n ∧ c.bases.any (targetMatches name ·) = true

/-- The listed classes that are chained by names to the base. -/
def ChainIn (classes : List Derivation) (base : String) : Nat → Node → Prop :=
  Chain (DerivesIn classes · base) fun n m => DerivesIn classes n m.qualifiedName

/-- The classes that a lookup of the name finds. -/
def HierarchySearch.derived (classes : List Derivation) (name : String) (search : HierarchySearch) : List Node :=
  (classes.filter fun c => !search.found.contains c.node.id && c.bases.any (targetMatches name ·)).map
    Derivation.node

/-- The search after the lookup of a name. -/
def HierarchySearch.lookUp (classes : List Derivation) (name : String) (depth : Nat)
    (queue : List (String × Nat)) (search : HierarchySearch) : HierarchySearch :=
  { queue := queue ++ (search.derived classes name).map fun n => (n.qualifiedName, depth + 1)
    lookedUp := search.lookedUp.insert name
    found := (search.derived classes name).foldl (fun acc n => acc.insert n.id) search.found }

/-- A name is due at a depth: the base at once, and the name of a class where the class was met. -/
def IsDue (base : String) (met : List (Node × Nat)) (name : String) (d : Nat) : Prop :=
  (name = base ∧ d = 0) ∨ ∃ n, (n, d) ∈ met ∧ n.qualifiedName = name

/-- Where a search stands: the names that were looked up and the classes that were met, each with its depth. -/
structure Lookups (classes : List Derivation) (base : String) (maxDepth : Nat) (search : HierarchySearch)
    (done : List (String × Nat)) (met : List (Node × Nat)) : Prop where
  mem_lookedUp : ∀ name, name ∈ search.lookedUp ↔ ∃ d, (name, d) ∈ done
  mem_found : ∀ id, id ∈ search.found ↔ ∃ x ∈ met, x.1.id = id
  nodup : (met.map fun x => x.1.id).Nodup
  chain : ∀ {n k}, (n, k) ∈ met → k ≤ maxDepth + 1 ∧ ChainIn classes base k n
  due : ∀ {name d}, (name, d) ∈ search.queue → IsDue base met name d
  /-- What is due waits, or was looked up, no deeper than it is due. -/
  awaited : ∀ {name d}, IsDue base met name d → d ≤ maxDepth → ∃ d' ≤ d, (name, d') ∈ done ++ search.queue
  /-- What derives from a name that was looked up was met one step further on at the latest. -/
  closed : ∀ {name d n}, (name, d) ∈ done → DerivesIn classes n name → ∃ k ≤ d + 1, (n, k) ∈ met
  sorted : (done ++ search.queue).Pairwise fun x y => x.2 ≤ y.2
  near : ∀ x ∈ search.queue, ∀ y ∈ met, y.2 ≤ x.2 + 1
  ascends : met.Pairwise fun x y => x.2 ≤ y.2

variable {classes : List Derivation} {base name : String} {maxDepth d k : Nat} {search : HierarchySearch}
  {queue done : List (String × Nat)} {met : List (Node × Nat)} {n : Node}

/-- What is chained to the base is listed. -/
theorem ChainIn.exists_listed (h : ChainIn classes base k n) : ∃ c ∈ classes, c.node = n := by
  have hlisted : ∀ a name, DerivesIn classes a name → ∃ c ∈ classes, c.node = a :=
    fun _ _ ⟨c, hc, hnode, _⟩ => ⟨c, hc, hnode⟩
  apply h.of_first_link (Nat.le_succ k)
  · exact fun a hbegins => hlisted a base hbegins
  · exact fun a b _ _ _ hlink => hlisted a b.qualifiedName hlink

theorem mem_derived : n ∈ search.derived classes name ↔ DerivesIn classes n name ∧ n.id ∉ search.found := by
  unfold HierarchySearch.derived
  rw [List.mem_map]
  constructor
  · intro h
    obtain ⟨c, hc, rfl⟩ := h
    obtain ⟨hlisted, hboth⟩ := List.mem_filter.mp hc
    rw [Bool.and_eq_true, Bool.not_eq_true', ← Bool.not_eq_true, ← Std.TreeSet.mem_iff_contains] at hboth
    exact ⟨⟨c, hlisted, rfl, hboth.2⟩, hboth.1⟩
  · intro h
    obtain ⟨⟨c, hlisted, rfl, hany⟩, hnew⟩ := h
    refine ⟨c, List.mem_filter.mpr ⟨hlisted, ?_⟩, rfl⟩
    rw [Bool.and_eq_true, Bool.not_eq_true', ← Bool.not_eq_true, ← Std.TreeSet.mem_iff_contains]
    exact ⟨hnew, hany⟩

namespace HierarchySearch

theorem mem_lookedUp_lookUp {other : String} :
    other ∈ (search.lookUp classes name d queue).lookedUp ↔ other ∈ search.lookedUp ∨ other = name := by
  show other ∈ search.lookedUp.insert name ↔ _
  rw [Std.TreeSet.mem_insert, Std.LawfulEqCmp.compare_eq_iff_eq, or_comm, eq_comm]

theorem mem_found_lookUp {id : String} :
    id ∈ (search.lookUp classes name d queue).found ↔
      id ∈ search.found ∨ ∃ n ∈ search.derived classes name, n.id = id :=
  mem_insertedAll Node.id

theorem nodup_derived (hids : (classes.map fun c => c.node.id).Nodup) :
    ((search.derived classes name).map Node.id).Nodup := by
  unfold derived
  rw [List.map_map]
  exact hids.sublist (List.Sublist.map _ List.filter_sublist)

end HierarchySearch

/-- What derives from a name that is due is chained to the base. -/
theorem IsDue.chainIn (h : IsDue base met name d)
    (hmet : ∀ {m j}, (m, j) ∈ met → ChainIn classes base j m) (hderives : DerivesIn classes n name) :
    ChainIn classes base (d + 1) n := by
  rcases h with ⟨rfl, rfl⟩ | ⟨m, hm, rfl⟩
  · exact .direct hderives
  · exact .through (hmet hm) hderives

/-- The search takes the first name of the queue. -/
theorem descend_of_queue (hqueue : search.queue = (name, d) :: queue) (steps : Nat) :
    descend classes maxDepth (steps + 1) search =
      if maxDepth < d || search.lookedUp.contains name then
        descend classes maxDepth steps { search with queue := queue }
      else
        search.derived classes name ++
          descend classes maxDepth steps (search.lookUp classes name d queue) := by
  rw [descend, hqueue]
  rfl

namespace Lookups

theorem initial (classes : List Derivation) (base : String) (maxDepth : Nat) :
    Lookups classes base maxDepth ⟨[(base, 0)], ∅, ∅⟩ [] [] where
  mem_lookedUp := by simp
  mem_found := by simp
  nodup := List.nodup_nil
  chain hmem := absurd hmem List.not_mem_nil
  due hmem := by
    obtain ⟨rfl, rfl⟩ := Prod.mk.inj (List.mem_singleton.mp hmem)
    exact .inl ⟨rfl, rfl⟩
  awaited hdue _ := by
    rcases hdue with ⟨rfl, rfl⟩ | ⟨n, hn, -⟩
    · exact ⟨0, Nat.le_refl 0, List.mem_singleton_self _⟩
    · exact absurd hn List.not_mem_nil
  closed hmem := absurd hmem List.not_mem_nil
  sorted := List.pairwise_singleton _ _
  near _ _ _ hy := absurd hy List.not_mem_nil
  ascends := .nil

/-- **A name is passed over** that lies too deep or was looked up before. -/
theorem passOver (h : Lookups classes base maxDepth search done met) (hqueue : search.queue = (name, d) :: queue)
    (hskip : maxDepth < d ∨ name ∈ search.lookedUp) :
    Lookups classes base maxDepth { search with queue := queue } done met := by
  have hsorted := h.sorted
  rw [hqueue] at hsorted
  constructor
  case mem_lookedUp => exact h.mem_lookedUp
  case mem_found => exact h.mem_found
  case nodup => exact h.nodup
  case chain => exact h.chain
  case closed => exact h.closed
  case ascends => exact h.ascends
  case due =>
    intro other d' hmem
    apply h.due
    rw [hqueue]
    exact List.mem_cons_of_mem _ hmem
  case near =>
    intro x hx
    apply h.near
    rw [hqueue]
    exact List.mem_cons_of_mem _ hx
  case sorted => exact hsorted.sublist ((List.sublist_cons_self _ _).append_left done)
  case awaited =>
    intro other d' hdue hd'
    obtain ⟨d'', hle, hmem⟩ := h.awaited hdue hd'
    rw [hqueue] at hmem
    rcases List.mem_append.mp hmem with hdone | hwaits
    · exact ⟨d'', hle, List.mem_append_left _ hdone⟩
    · rcases List.mem_cons.mp hwaits with heq | hwaits
      · -- This is the name that is passed over. It was due within the bound, so it was looked up before.
        obtain ⟨rfl, rfl⟩ := Prod.mk.inj heq
        have hseen : other ∈ search.lookedUp := hskip.resolve_left (by omega)
        obtain ⟨early, hearly⟩ := (h.mem_lookedUp other).mp hseen
        have hless : early ≤ d'' :=
          (List.pairwise_append.mp hsorted).2.2 _ hearly _ List.mem_cons_self
        exact ⟨early, by omega, List.mem_append_left _ hearly⟩
      · exact ⟨d'', hle, List.mem_append_right _ hwaits⟩

/-- What was looked up lies no deeper than the name at the front of the queue, what waits behind it no higher,
and what was met one level deeper at most. -/
theorem levels (h : Lookups classes base maxDepth search done met) (hqueue : search.queue = (name, d) :: queue) :
    (∀ x ∈ done, x.2 ≤ d) ∧ (∀ x ∈ queue, d ≤ x.2) ∧ ∀ y ∈ met, y.2 ≤ d + 1 := by
  have hsorted := h.sorted
  rw [hqueue] at hsorted
  obtain ⟨-, hwaits, hbefore⟩ := List.pairwise_append.mp hsorted
  exact ⟨fun x hx => hbefore x hx (name, d) List.mem_cons_self, (List.pairwise_cons.mp hwaits).1,
    h.near (name, d) (hqueue ▸ List.mem_cons_self)⟩

/-- After a name was looked up, all that derives from it has been met. -/
theorem exists_met_of_derives (h : Lookups classes base maxDepth search done met)
    (hids : (classes.map fun c => c.node.id).Nodup) (hqueue : search.queue = (name, d) :: queue)
    (hderives : DerivesIn classes n name) :
    ∃ k ≤ d + 1, (n, k) ∈ met ++ (search.derived classes name).map (·, d + 1) := by
  by_cases hfound : n.id ∈ search.found
  · -- Met before. It is the class that was met, for no two are listed under one identifier.
    obtain ⟨⟨m, k⟩, hm, hid⟩ := (h.mem_found _).mp hfound
    obtain ⟨c, hc, rfl, -⟩ := hderives
    obtain ⟨c', hc', rfl⟩ := (h.chain hm).2.exists_listed
    obtain rfl : c' = c := List.inj_on_of_nodup_map hids hc' hc hid
    exact ⟨k, (h.levels hqueue).2.2 _ hm, List.mem_append_left _ hm⟩
  · exact ⟨d + 1, Nat.le_refl _,
      List.mem_append_right _ (List.mem_map.mpr ⟨n, mem_derived.mpr ⟨hderives, hfound⟩, rfl⟩)⟩

/-- **A name is looked up.** What derives from it and was not met before is met one level deeper. -/
theorem lookUp (h : Lookups classes base maxDepth search done met)
    (hids : (classes.map fun c => c.node.id).Nodup) (hqueue : search.queue = (name, d) :: queue)
    (hd : d ≤ maxDepth) :
    Lookups classes base maxDepth (search.lookUp classes name d queue) (done ++ [(name, d)])
      (met ++ (search.derived classes name).map (·, d + 1)) := by
  have hdue : IsDue base met name d := h.due (hqueue ▸ List.mem_cons_self)
  obtain ⟨hbefore, hwaits, hbound⟩ := h.levels hqueue
  have hold : ∀ {x}, x ∈ met → x ∈ met ++ (search.derived classes name).map (·, d + 1) :=
    List.mem_append_left _
  -- The queue loses its front, which was looked up, and takes the names of what was met.
  have hreorder : (done ++ [(name, d)]) ++ (search.lookUp classes name d queue).queue =
      (done ++ search.queue) ++ (search.derived classes name).map fun n => (n.qualifiedName, d + 1) := by
    rw [hqueue]
    simp [HierarchySearch.lookUp]
  constructor
  case mem_lookedUp =>
    intro other
    rw [HierarchySearch.mem_lookedUp_lookUp, h.mem_lookedUp]
    simp only [List.mem_append, List.mem_singleton, Prod.mk.injEq, exists_or, exists_and_left, exists_eq, and_true]
  case mem_found =>
    intro id
    rw [HierarchySearch.mem_found_lookUp, h.mem_found]
    simp only [List.mem_append, List.mem_map, or_and_right, exists_or, exists_exists_and_eq_and]
  case nodup =>
    rw [List.map_append, List.map_map]
    refine h.nodup.append (HierarchySearch.nodup_derived hids) fun id hmet hnew => ?_
    obtain ⟨x, hx, rfl⟩ := List.mem_map.mp hmet
    obtain ⟨n, hn, heq⟩ := List.mem_map.mp hnew
    exact (mem_derived.mp hn).2 ((h.mem_found _).mpr ⟨x, hx, heq.symm⟩)
  case chain =>
    intro n k hmem
    rcases List.mem_append.mp hmem with hmem | hmem
    · exact h.chain hmem
    · obtain ⟨m, hm, heq⟩ := List.mem_map.mp hmem
      obtain ⟨rfl, rfl⟩ := Prod.mk.inj heq
      exact ⟨by omega, hdue.chainIn (fun hm => (h.chain hm).2) (mem_derived.mp hm).1⟩
  case due =>
    intro other d' hmem
    rcases List.mem_append.mp hmem with hmem | hmem
    · have hother : IsDue base met other d' := h.due (hqueue ▸ List.mem_cons_of_mem _ hmem)
      exact hother.imp_right fun ⟨n, hn, hname⟩ => ⟨n, hold hn, hname⟩
    · obtain ⟨n, hn, heq⟩ := List.mem_map.mp hmem
      obtain ⟨rfl, rfl⟩ := Prod.mk.inj heq
      exact .inr ⟨n, List.mem_append_right _ (List.mem_map.mpr ⟨n, hn, rfl⟩), rfl⟩
  case awaited =>
    intro other d' hother hd'
    rw [hreorder]
    have hlater : IsDue base met other d' ∨
        ∃ n ∈ search.derived classes name, n.qualifiedName = other ∧ d + 1 = d' := by
      rcases hother with hbase | ⟨n, hn, hname⟩
      · exact .inl (.inl hbase)
      · rcases List.mem_append.mp hn with hn | hn
        · exact .inl (.inr ⟨n, hn, hname⟩)
        · obtain ⟨m, hm, heq⟩ := List.mem_map.mp hn
          obtain ⟨rfl, rfl⟩ := Prod.mk.inj heq
          exact .inr ⟨_, hm, hname, rfl⟩
    rcases hlater with hother | ⟨n, hn, rfl, rfl⟩
    · obtain ⟨d'', hle, hmem⟩ := h.awaited hother hd'
      exact ⟨d'', hle, List.mem_append_left _ hmem⟩
    · -- The class is met just now, and its name joins the queue.
      exact ⟨d + 1, Nat.le_refl _, List.mem_append_right _ (List.mem_map.mpr ⟨n, hn, rfl⟩)⟩
  case closed =>
    intro other d' n hmem hderives
    rcases List.mem_append.mp hmem with hmem | hmem
    · obtain ⟨k, hk, hn⟩ := h.closed hmem hderives
      exact ⟨k, hk, hold hn⟩
    · obtain ⟨rfl, rfl⟩ := Prod.mk.inj (List.mem_singleton.mp hmem)
      exact h.exists_met_of_derives hids hqueue hderives
  case sorted =>
    -- What joins is one level deeper, and what waits is a class that was met or the base.
    rw [hreorder]
    refine ascends_append_level h.sorted (fun x hx => ?_) Node.qualifiedName _
    rcases List.mem_append.mp hx with hx | hx
    · exact Nat.le_succ_of_le (hbefore x hx)
    · rcases h.due hx with ⟨-, hzero⟩ | ⟨m, hm, -⟩
      · exact hzero ▸ Nat.zero_le _
      · exact hbound _ hm
  case near => exact near_append_level hwaits hbound Node.qualifiedName (fun n => n) _
  case ascends => exact ascends_append_level h.ascends hbound (fun n => n) _

/-- What is met is listed, and each class once. -/
theorem length_le (h : Lookups classes base maxDepth search done met) : met.length ≤ classes.length := by
  have hsubset : (met.map fun x => x.1.id) ⊆ classes.map fun c => c.node.id := by
    intro id hid
    obtain ⟨⟨n, k⟩, hmem, rfl⟩ := List.mem_map.mp hid
    obtain ⟨c, hc, rfl⟩ := (h.chain hmem).2.exists_listed
    exact List.mem_map.mpr ⟨c, hc, rfl⟩
  calc met.length = (met.map fun x => x.1.id).length := (List.length_map _).symm
    _ ≤ (classes.map fun c => c.node.id).length := (h.nodup.subperm hsubset).length_le
    _ = classes.length := List.length_map _

/-- **Where nothing waits** every chain within the bound was met, by one no longer. -/
theorem exists_met (h : Lookups classes base maxDepth search done met) (hqueue : search.queue = [])
    (hchain : ChainIn classes base k n) (hk : k ≤ maxDepth + 1) : ∃ j ≤ k, (n, j) ∈ met := by
  -- With nothing waiting, what is due within the bound has been looked up.
  have hawaited : ∀ {name d}, IsDue base met name d → d ≤ maxDepth → ∃ d' ≤ d, (name, d') ∈ done := by
    intro name d hdue hd
    obtain ⟨d', hle, hmem⟩ := h.awaited hdue hd
    rw [hqueue, List.append_nil] at hmem
    exact ⟨d', hle, hmem⟩
  induction hchain with
  | direct hbegins =>
      obtain ⟨d', hle, hdone⟩ := hawaited (.inl ⟨rfl, rfl⟩) (Nat.zero_le _)
      obtain ⟨j, hj, hmem⟩ := h.closed hdone hbegins
      exact ⟨j, by omega, hmem⟩
  | through rest hlink ih =>
      obtain ⟨j, hj, hmem⟩ := ih (by omega)
      obtain ⟨d', hle, hdone⟩ := hawaited (.inr ⟨_, hmem, rfl⟩) (by omega)
      obtain ⟨i, hi, hfirst⟩ := h.closed hdone hlink
      exact ⟨i, by omega, hfirst⟩

/-- **The run.** Each step takes one name from the queue, and no more names join it than classes are met, so
the steps last until nothing waits. -/
theorem exists_run (hids : (classes.map fun c => c.node.id).Nodup) (steps : Nat)
    (h : Lookups classes base maxDepth search done met)
    (hsteps : search.queue.length + classes.length ≤ steps + met.length) :
    ∃ (more : List (Node × Nat)) (last : HierarchySearch) (after : List (String × Nat)),
      descend classes maxDepth steps search = more.map Prod.fst ∧ last.queue = [] ∧
        Lookups classes base maxDepth last after (met ++ more) := by
  induction steps generalizing search done met with
  | zero =>
      have hempty : search.queue = [] := by
        have := h.length_le
        exact List.eq_nil_of_length_eq_zero (by omega)
      exact ⟨[], search, done, rfl, hempty, by rwa [List.append_nil]⟩
  | succ steps ih =>
      rcases hqueue : search.queue with _ | ⟨⟨name, d⟩, queue⟩
      · refine ⟨[], search, done, ?_, hqueue, by rwa [List.append_nil]⟩
        rw [descend, hqueue]
        rfl
      · rw [hqueue, List.length_cons] at hsteps
        rw [descend_of_queue hqueue]
        split
        · rename_i hskip
          rw [Bool.or_eq_true, decide_eq_true_eq, ← Std.TreeSet.mem_iff_contains] at hskip
          refine ih (h.passOver hqueue hskip) ?_
          show queue.length + classes.length ≤ steps + met.length
          omega
        · rename_i hskip
          rw [Bool.or_eq_true, decide_eq_true_eq, not_or] at hskip
          -- Whatever joins the queue is met in this step, so the bound holds on.
          have hnext := h.lookUp hids hqueue (Nat.not_lt.mp hskip.1)
          have hleft : (search.lookUp classes name d queue).queue.length + classes.length ≤
              steps + (met ++ (search.derived classes name).map (·, d + 1)).length := by
            show (queue ++ _).length + classes.length ≤ _
            rw [List.length_append, List.length_append, List.length_map, List.length_map]
            omega
          obtain ⟨more, last, after, hrun, hlast, hafter⟩ := ih hnext hleft
          refine ⟨(search.derived classes name).map (·, d + 1) ++ more, last, after, ?_, hlast, ?_⟩
          · have hfirst : ((search.derived classes name).map (·, d + 1)).map Prod.fst =
                search.derived classes name := by
              rw [List.map_map]
              exact List.map_id _
            rw [hrun, List.map_append, hfirst]
          · rwa [← List.append_assoc]

end Lookups

/-- **What a search finds**: the classes that are chained to the base within the bound, each once, and the ones
with shorter chains first. -/
theorem descend_exact (hids : (classes.map fun c => c.node.id).Nodup) (base : String) (maxDepth : Nat) :
    ∃ found : List Node, descend classes maxDepth (classes.length + 1) ⟨[(base, 0)], ∅, ∅⟩ = found ∧
      (found.map Node.id).Nodup ∧
      (∀ n, n ∈ found ↔ ∃ k ≤ maxDepth + 1, ChainIn classes base k n) ∧
      found.Pairwise fun a b => ∀ k, ChainIn classes base k b → ∃ j ≤ k, ChainIn classes base j a := by
  obtain ⟨met, last, done, hrun, hlast, h⟩ := Lookups.exists_run hids (classes.length + 1)
    (.initial classes base maxDepth) (by
      show 1 + classes.length ≤ classes.length + 1 + 0
      omega)
  rw [List.nil_append] at h
  refine ⟨met.map Prod.fst, hrun, ?_, fun n => ⟨?_, ?_⟩, ?_⟩
  · rw [List.map_map]
    exact h.nodup
  · intro hn
    obtain ⟨⟨n, k⟩, hmem, rfl⟩ := List.mem_map.mp hn
    exact ⟨k, h.chain hmem⟩
  · rintro ⟨k, hk, hchain⟩
    obtain ⟨j, -, hmem⟩ := h.exists_met hlast hchain hk
    exact List.mem_map.mpr ⟨_, hmem, rfl⟩
  · refine List.pairwise_map.mpr (h.ascends.imp_of_mem fun {a b} ha hb hle k hk => ?_)
    obtain ⟨hbound, hchain⟩ := h.chain ha
    refine ⟨a.2, ?_, hchain⟩
    by_cases hwithin : k ≤ maxDepth + 1
    · -- The class was met at its shortest chain, and only once.
      obtain ⟨j, hj, hmem⟩ := h.exists_met hlast hk hwithin
      have heq : b = (b.1, j) := List.inj_on_of_nodup_map h.nodup hb hmem rfl
      have hsame : b.2 = j := congrArg Prod.snd heq
      omega
    · omega

end Query

/-! ## Classes of a database -/

namespace Rows

variable {rows : Rows}

/-- The class is stored, and an edge of inheritance leads from it to the identifier. -/
def Extends (rows : Rows) (n : Node) (target : String) : Prop :=
  rows.HoldsNode n ∧ n.kind = .classDef ∧
    ∃ e, rows.HoldsEdge e ∧ e.kind = .inherits ∧ e.source = n.id ∧ e.target = target

/-- The class extends something whose identifier the name matches. -/
def ExtendsNamed (rows : Rows) (n : Node) (name : String) : Prop :=
  ∃ target, rows.Extends n target ∧ Query.targetMatches name target = true

/-- **The class derives from the base**: so many edges lead from class to class, and the last of them to an
identifier that the base matches. -/
def Derives (rows : Rows) (base : String) : Nat → Node → Prop :=
  Query.Chain (rows.ExtendsNamed · base) fun n m => rows.Extends n m.id

/-- The class derives from the base if every edge is taken to lead to all classes whose name it matches. -/
def DerivesByName (rows : Rows) (base : String) : Nat → Node → Prop :=
  Query.Chain (rows.ExtendsNamed · base) fun n m => rows.ExtendsNamed n m.qualifiedName

/-- The names of classes tell them apart: an edge of inheritance matches the name of a stored class just if it
leads there. -/
def NamesTellApart (rows : Rows) : Prop :=
  ∀ n m target, rows.HoldsNode m → m.kind = .classDef → rows.Extends n target →
    (Query.targetMatches m.qualifiedName target = true ↔ target = m.id)

/-- No name leads astray: what extends by name a class found within the bound derives from the base. -/
def NoneAstray (rows : Rows) (base : String) (maxDepth : Nat) : Prop :=
  ∀ n m k, k ≤ maxDepth → rows.DerivesByName base k m → rows.ExtendsNamed n m.qualifiedName →
    ∃ j ≤ maxDepth + 1, rows.Derives base j n

/-- No class is missed: what extends a class that derives from the base within the bound is found by name. -/
def NoneMissed (rows : Rows) (base : String) (maxDepth : Nat) : Prop :=
  ∀ n m k, k ≤ maxDepth → rows.Derives base k m → rows.Extends n m.id →
    ∃ j ≤ maxDepth + 1, rows.DerivesByName base j n

/-- The classes that are chained to the base by names, each once and those with shorter chains first. -/
structure IsFoundByName (rows : Rows) (base : String) (maxDepth : Nat) (found : List Node) : Prop where
  nodup : (found.map Node.id).Nodup
  mem_iff : ∀ n, n ∈ found ↔ ∃ k ≤ maxDepth + 1, rows.DerivesByName base k n
  nearest_first : found.Pairwise fun a b =>
    ∀ k, rows.DerivesByName base k b → ∃ j ≤ k, rows.DerivesByName base j a

/-- The classes that derive from the base within the bound. -/
def IsDerived (rows : Rows) (base : String) (maxDepth : Nat) (found : List Node) : Prop :=
  ∀ n, n ∈ found ↔ ∃ k ≤ maxDepth + 1, rows.Derives base k n

theorem ExtendsNamed.exists_extends {n : Node} {name : String} (h : rows.ExtendsNamed n name) :
    ∃ target, rows.Extends n target := by
  obtain ⟨target, hextends, -⟩ := h
  exact ⟨target, hextends⟩

theorem Derives.exists_extends {base : String} {k : Nat} {n : Node} (h : rows.Derives base k n) :
    ∃ target, rows.Extends n target := by
  apply h.of_first_link (Nat.le_succ k)
  · exact fun a hbegins => hbegins.exists_extends
  · exact fun a b _ _ _ hlink => ⟨b.id, hlink⟩

theorem DerivesByName.exists_extends {base : String} {k : Nat} {n : Node} (h : rows.DerivesByName base k n) :
    ∃ target, rows.Extends n target := by
  apply h.of_first_link (Nat.le_succ k)
  · exact fun a hbegins => hbegins.exists_extends
  · exact fun a b _ _ _ hlink => hlink.exists_extends

theorem NamesTellApart.derivesByName_iff (h : rows.NamesTellApart) {base : String} {k : Nat} {n : Node} :
    rows.DerivesByName base k n ↔ rows.Derives base k n := by
  constructor
  · intro hchain
    apply hchain.mono
    intro a b j hb hlink
    obtain ⟨target, hextends, hmatches⟩ := hlink
    obtain ⟨_, hstored, hclass, -⟩ := DerivesByName.exists_extends hb
    have htarget : target = b.id := (h a b target hstored hclass hextends).mp hmatches
    exact htarget ▸ hextends
  · intro hchain
    apply hchain.mono
    intro a b j hb hlink
    obtain ⟨_, hstored, hclass, -⟩ := Derives.exists_extends hb
    exact ⟨b.id, hlink, (h a b b.id hstored hclass hlink).mpr rfl⟩

/-- **What is found by name is what derives from the base** just if no name leads astray and no class is missed.
By the first link of a chain the rest of it is within the bound on one side, and so the whole on the other. -/
theorem IsFoundByName.isDerived_iff {base : String} {maxDepth : Nat} {found : List Node}
    (h : rows.IsFoundByName base maxDepth found) :
    rows.IsDerived base maxDepth found ↔ rows.NoneAstray base maxDepth ∧ rows.NoneMissed base maxDepth := by
  unfold IsDerived
  simp only [h.mem_iff]
  constructor
  · intro hexact
    constructor
    · intro n m k hk hm hlink
      exact (hexact n).mp ⟨k + 1, by omega, .through hm hlink⟩
    · intro n m k hk hm hlink
      exact (hexact n).mpr ⟨k + 1, by omega, .through hm hlink⟩
  · rintro ⟨hastray, hmissed⟩ n
    constructor
    · rintro ⟨k, hk, hchain⟩
      apply hchain.of_first_link (p := fun n => ∃ j ≤ maxDepth + 1, rows.Derives base j n) hk
      · exact fun a ha => ⟨1, by omega, .direct ha⟩
      · exact fun a b j hj hb hlink => hastray a b j hj hb hlink
    · rintro ⟨k, hk, hchain⟩
      apply hchain.of_first_link (p := fun n => ∃ j ≤ maxDepth + 1, rows.DerivesByName base j n) hk
      · exact fun a ha => ⟨1, by omega, .direct ha⟩
      · exact fun a b j hj hb hlink => hmissed a b j hj hb hlink

/-- The stored edges of inheritance that begin at an identifier. -/
def inheritsOf (rows : Rows) (id : String) : List Edge :=
  rows.edgeList fun key => key.source = id && ((none : Option String).all fun t => key.target = t) &&
    (some EdgeKind.inherits).all fun k => key.kind = k

theorem mem_inheritsOf {id : String} {e : Edge} :
    e ∈ rows.inheritsOf id ↔ rows.HoldsEdge e ∧ e.source = id ∧ e.kind = .inherits := by
  rw [inheritsOf, mem_edgeList, Option.all_none, Option.all_some, Bool.and_true, Bool.and_eq_true,
    decide_eq_true_eq, decide_eq_true_eq]
  rfl

theorem Extends.mem_targets {n : Node} {target : String} (h : rows.Extends n target) :
    target ∈ (rows.inheritsOf n.id).map Edge.target := by
  obtain ⟨-, -, e, hstored, hkind, hsource, rfl⟩ := h
  exact List.mem_map.mpr ⟨e, mem_inheritsOf.mpr ⟨hstored, hsource, hkind⟩, rfl⟩

/-- The stored classes with the targets of their edges of inheritance. -/
def derivations (rows : Rows) : List Query.Derivation :=
  (rows.nodeList (some .classDef)).map fun n => ⟨n, (rows.inheritsOf n.id).map Edge.target⟩

theorem derivesIn_derivations {n : Node} {name : String} :
    Query.DerivesIn rows.derivations n name ↔ rows.ExtendsNamed n name := by
  have hclass : ∀ m, m ∈ rows.nodeList (some .classDef) ↔ rows.HoldsNode m ∧ m.kind = .classDef := by
    intro m
    rw [mem_nodeList]
    simp
  constructor
  · intro h
    obtain ⟨c, hc, rfl, hany⟩ := h
    obtain ⟨m, hm, rfl⟩ := List.mem_map.mp hc
    obtain ⟨target, htarget, hmatches⟩ := List.any_eq_true.mp hany
    obtain ⟨e, he, rfl⟩ := List.mem_map.mp htarget
    obtain ⟨hstored, hsource, hkind⟩ := mem_inheritsOf.mp he
    obtain ⟨hnode, hclassDef⟩ := (hclass m).mp hm
    exact ⟨e.target, ⟨hnode, hclassDef, e, hstored, hkind, hsource, rfl⟩, hmatches⟩
  · intro h
    obtain ⟨target, hextends, hmatches⟩ := h
    refine ⟨_, List.mem_map.mpr ⟨n, (hclass n).mpr ⟨hextends.1, hextends.2.1⟩, rfl⟩, rfl, ?_⟩
    exact List.any_eq_true.mpr ⟨target, hextends.mem_targets, hmatches⟩

theorem chainIn_derivations {base : String} : Query.ChainIn rows.derivations base = rows.DerivesByName base := by
  unfold Query.ChainIn DerivesByName
  simp only [derivesIn_derivations]

theorem nodup_derivations (rows : Rows) : (rows.derivations.map fun c => c.node.id).Nodup := by
  unfold derivations
  rw [List.map_map]
  refine List.pairwise_map.mpr ((rows.pairwise_nodeList _).imp fun {a b} hlt heq => ?_)
  have heq : a.id = b.id := heq
  exact String.lt_irrefl _ (heq ▸ hlt)

end Rows

namespace Query

/-- **Reading the classes.** No read fails, and the search runs over all stored classes. -/
theorem hierarchy_eq {t : Table} (hstate : t.state.IsReadable) (hdecodes : t.rows.Decodes)
    (hbound : t.rows.nodeCount (some .classDef) ≤ scanLimit) (base : String) (maxDepth : Nat) :
    hierarchy (.table t) base maxDepth =
      .ok (descend t.rows.derivations maxDepth (t.rows.derivations.length + 1) ⟨[(base, 0)], ∅, ∅⟩) := by
  have hscan : scan (.table t) .classDef [] = .ok (t.rows.nodeList (some .classDef)) := by
    refine (scan_eq hstate hdecodes t.rows.admits_nil hbound).trans (congrArg Except.ok ?_)
    exact List.filter_eq_self.mpr fun _ _ => rfl
  -- Each class is read together with what it inherits from, and no such read fails.
  have hread : (fun n : Node => do
      let edges ← Store.edgesFrom (.table t) n.id none (some .inherits)
      pure (⟨n, edges.map Edge.target⟩ : Derivation) : Node → Outcome Derivation) =
      fun n => pure ⟨n, (t.rows.inheritsOf n.id).map Edge.target⟩ := by
    funext n
    have hedges : Store.edgesFrom (.table t) n.id none (some .inherits) = .ok (t.rows.inheritsOf n.id) :=
      t.edgesFrom_eq hstate hdecodes n.id none (some .inherits)
    rw [hedges]
    rfl
  unfold hierarchy
  refine bind_eq_ok.mpr ⟨_, hscan, bind_eq_ok.mpr ⟨t.rows.derivations, ?_, rfl⟩⟩
  rw [hread]
  exact List.mapM_pure

/-- **The classes that are found** are those that are chained to the base by names. -/
theorem hierarchy_foundByName {t : Table} (hstate : t.state.IsReadable) (hdecodes : t.rows.Decodes)
    (hbound : t.rows.nodeCount (some .classDef) ≤ scanLimit) (base : String) (maxDepth : Nat) :
    ∃ found : List Node, hierarchy (.table t) base maxDepth = .ok found ∧
      t.rows.IsFoundByName base maxDepth found := by
  obtain ⟨found, hrun, hnodup, hmem, horder⟩ := descend_exact t.rows.nodup_derivations base maxDepth
  rw [Rows.chainIn_derivations] at hmem horder
  refine ⟨found, ?_, hnodup, hmem, horder⟩
  rw [hierarchy_eq hstate hdecodes hbound, hrun]

/-- **Hierarchies of classes.** From rows that can be read, with no more classes than a scan takes, the classes
are found that derive from the base by their names. They are the classes that derive from the base just if no
name leads astray and no class is missed, and so they are wherever the names of the classes tell them apart. -/
theorem hierarchy_table {t : Table} (hstate : t.state.IsReadable) (hdecodes : t.rows.Decodes)
    (hbound : t.rows.nodeCount (some .classDef) ≤ scanLimit) (base : String) (maxDepth : Nat) :
    ∃ found : List Node, hierarchy (.table t) base maxDepth = .ok found ∧
      t.rows.IsFoundByName base maxDepth found ∧
      (t.rows.IsDerived base maxDepth found ↔
        t.rows.NoneAstray base maxDepth ∧ t.rows.NoneMissed base maxDepth) ∧
      (t.rows.NamesTellApart → t.rows.IsDerived base maxDepth found) := by
  obtain ⟨found, hrun, hfound⟩ := hierarchy_foundByName hstate hdecodes hbound base maxDepth
  refine ⟨found, hrun, hfound, hfound.isDerived_iff, ?_⟩
  intro hapart n
  rw [hfound.mem_iff]
  simp only [hapart.derivesByName_iff]

/-- A class without bases and methods of its own. -/
def classCalled (id name : String) : Node := .ofCore id (.classDef name name 1 2 [] [])

/-- An edge of inheritance. -/
def inheriting (source target : String) : Edge := .ofCore source target (.plain .inherits)

/-- A class below a base, and a class of another file whose base ends with the name of the first. -/
def nameThatEndsAlike : Table :=
  .ofRows .inMemory (((((Rows.empty.putNode (classCalled "class:a.py:Mid" "Mid")).putNode
    (classCalled "class:b.py:OtherMid" "OtherMid")).putNode (classCalled "class:b.py:Leaf" "Leaf")).putEdge
      (inheriting "class:a.py:Mid" "class:a.py:Base")).putEdge (inheriting "class:b.py:Leaf" "class:b.py:OtherMid"))

/-- What its rows hold: records as they are read again. -/
theorem holds_nameThatEndsAlike :
    nameThatEndsAlike.rows.Holds
      (((((Content.putNode ∅ (classCalled "class:a.py:Mid" "Mid").reread).putNode
        (classCalled "class:b.py:OtherMid" "OtherMid").reread).putNode
          (classCalled "class:b.py:Leaf" "Leaf").reread).putEdge false
            (inheriting "class:a.py:Mid" "class:a.py:Base").reread).putEdge false
              (inheriting "class:b.py:Leaf" "class:b.py:OtherMid").reread) := by
  have hbare : Properties.KeepsFloats ∅ := fun _ _ h => by simp at h
  have hnode : ∀ id name, (classCalled id name).IsApart := fun _ _ _ _ => rfl
  have hedge : ∀ source target, (inheriting source target).IsApart := fun _ _ _ _ => rfl
  exact ((((Rows.holds_empty.putNode (hnode _ _) hbare).putNode (hnode _ _) hbare).putNode (hnode _ _)
    hbare).putEdge (hedge _ _) hbare).putEdge (hedge _ _) hbare

theorem hierarchy_table_nameThatEndsAlike :
    ∃ found : List Node, hierarchy (.table nameThatEndsAlike) "Base" 5 = .ok found ∧
      nameThatEndsAlike.rows.IsFoundByName "Base" 5 found ∧
      (nameThatEndsAlike.rows.IsDerived "Base" 5 found ↔
        nameThatEndsAlike.rows.NoneAstray "Base" 5 ∧ nameThatEndsAlike.rows.NoneMissed "Base" 5) ∧
      (nameThatEndsAlike.rows.NamesTellApart → nameThatEndsAlike.rows.IsDerived "Base" 5 found) :=
  hierarchy_table (.inl rfl) holds_nameThatEndsAlike.decodes (by decide +kernel) "Base" 5

/-- The two edges of inheritance in it. -/
theorem extends_nameThatEndsAlike {n : Node} {target : String} :
    nameThatEndsAlike.rows.Extends n target ↔
      (n = (classCalled "class:a.py:Mid" "Mid").reread ∧ target = "class:a.py:Base") ∨
        (n = (classCalled "class:b.py:Leaf" "Leaf").reread ∧ target = "class:b.py:OtherMid") := by
  let midEdge := (inheriting "class:a.py:Mid" "class:a.py:Base").reread
  let leafEdge := (inheriting "class:b.py:Leaf" "class:b.py:OtherMid").reread
  unfold Rows.Extends
  simp only [holds_nameThatEndsAlike.holdsNode_iff, holds_nameThatEndsAlike.holdsEdge_iff]
  constructor
  · rintro ⟨hn, -, e, he, -, hsource, rfl⟩
    rw [← hsource] at hn
    have hends : ∀ {source target}, e.key = ⟨source, target, .inherits⟩ → e.source = source ∧ e.target = target :=
      fun hkey => ⟨congrArg EdgeKey.source hkey, congrArg EdgeKey.target hkey⟩
    -- There are two edges of inheritance, so an edge that is found is one or the other.
    by_cases hleaf : e.key = leafEdge.key
    · obtain ⟨hfirst, hlast⟩ := hends hleaf
      rw [hfirst] at hn
      exact .inr ⟨(Option.some.inj hn).symm, hlast⟩
    · by_cases hmid : e.key = midEdge.key
      · obtain ⟨hfirst, hlast⟩ := hends hmid
        rw [hfirst] at hn
        exact .inl ⟨(Option.some.inj hn).symm, hlast⟩
      · change (if e.key = leafEdge.key then _ else if e.key = midEdge.key then _ else none) = some e at he
        rw [if_neg hleaf, if_neg hmid] at he
        cases he
  · rintro (⟨rfl, rfl⟩ | ⟨rfl, rfl⟩)
    · exact ⟨rfl, rfl, midEdge, rfl, rfl, rfl, rfl⟩
    · exact ⟨rfl, rfl, leafEdge, rfl, rfl, rfl, rfl⟩

/-- **A class is found that does not derive from the base**: an edge leads from it to a class whose identifier
ends with the name of a class below the base. -/
theorem hierarchy_reports_unrelated :
    ∃ (found : List Node) (n : Node), hierarchy (.table nameThatEndsAlike) "Base" 5 = .ok found ∧ n ∈ found ∧
      ∀ k, ¬nameThatEndsAlike.rows.Derives "Base" k n := by
  have hbound : nameThatEndsAlike.rows.nodeCount (some .classDef) ≤ scanLimit := by decide +kernel
  obtain ⟨found, hrun, hfound⟩ :=
    hierarchy_foundByName (.inl rfl) holds_nameThatEndsAlike.decodes hbound "Base" 5
  have hmid : nameThatEndsAlike.rows.DerivesByName "Base" 1 (classCalled "class:a.py:Mid" "Mid").reread :=
    .direct ⟨_, extends_nameThatEndsAlike.mpr (.inl ⟨rfl, rfl⟩), by decide +kernel⟩
  have hleaf : nameThatEndsAlike.rows.DerivesByName "Base" 2 (classCalled "class:b.py:Leaf" "Leaf").reread :=
    .through hmid ⟨_, extends_nameThatEndsAlike.mpr (.inr ⟨rfl, rfl⟩), by decide +kernel⟩
  refine ⟨found, _, hrun, (hfound.mem_iff _).mpr ⟨2, by decide, hleaf⟩, fun k hderives => ?_⟩
  -- Its only edge leads to a class that the base does not match and that no edge leads away from.
  have hleafEdge : ∀ {target}, nameThatEndsAlike.rows.Extends (classCalled "class:b.py:Leaf" "Leaf").reread target →
      target = "class:b.py:OtherMid" := by
    intro target hextends
    obtain ⟨hmid, -⟩ | ⟨-, htarget⟩ := extends_nameThatEndsAlike.mp hextends
    · exact absurd (congrArg Node.id hmid) (by decide)
    · exact htarget
  cases hderives with
  | direct hbegins =>
      obtain ⟨target, hextends, hmatches⟩ := hbegins
      rw [hleafEdge hextends] at hmatches
      exact absurd hmatches (by decide +kernel)
  | @through _ _ m rest hlink =>
      obtain ⟨target, hextends⟩ := Rows.Derives.exists_extends rest
      have hid : m.id = "class:b.py:OtherMid" := hleafEdge hlink
      obtain ⟨rfl, -⟩ | ⟨rfl, -⟩ := extends_nameThatEndsAlike.mp hextends
      · exact absurd hid (by decide)
      · exact absurd hid (by decide)

end Query

end ProgramGraph
