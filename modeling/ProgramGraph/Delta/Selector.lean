import ProgramGraph.Edge.Basic

set_option autoImplicit false

/-! # Edge selectors

What a change set says about edges to remove: one edge by its key, or every edge from one node
to another.
-/

namespace ProgramGraph

/-- Selects edges for removal. -/
structure EdgeSelector where
  source : String
  target : String
  /-- The relation of the edge; without one, every relation is meant. -/
  kind : Option EdgeKind
  deriving Repr, DecidableEq, Inhabited

namespace EdgeSelector

/-- The place of the relation in the order of selectors: any relation comes first. -/
def rank (s : EdgeSelector) : Nat := s.kind.elim 0 fun kind => kind.rank + 1

/-- Selectors are compared by source, then target, then relation. -/
instance : Ord EdgeSelector where
  compare :=
    compareLex (compareOn EdgeSelector.source) (compareLex (compareOn EdgeSelector.target)
      (compareOn rank))

instance : Std.TransOrd EdgeSelector :=
  inferInstanceAs (Std.TransCmp (compareLex (compareOn EdgeSelector.source)
    (compareLex (compareOn EdgeSelector.target) (compareOn rank))))

/-- Relations, one or none, are told apart by their rank. -/
theorem kind_eq_of_rank_eq {a b : EdgeSelector} (h : a.rank = b.rank) : a.kind = b.kind := by
  cases ha : a.kind with
  | none => cases hb : b.kind with
    | none => rfl
    | some _ => simp [rank, ha, hb] at h
  | some _ => cases hb : b.kind with
    | none => simp [rank, ha, hb] at h
    | some _ =>
        simp only [rank, ha, hb, Option.elim_some, Nat.add_right_cancel_iff] at h
        rw [EdgeKind.eq_of_rank_eq h]

instance : Std.LawfulEqOrd EdgeSelector where
  eq_of_compare {a b} h := by
    obtain ⟨hs, h⟩ := Ordering.then_eq_eq.1 h
    obtain ⟨ht, hk⟩ := Ordering.then_eq_eq.1 h
    have hs := Std.LawfulEqOrd.eq_of_compare hs
    have ht := Std.LawfulEqOrd.eq_of_compare ht
    have hk := kind_eq_of_rank_eq (Std.LawfulEqOrd.eq_of_compare hk)
    cases a
    cases b
    simp_all

/-- Selects exactly one edge. -/
def exact (key : EdgeKey) : EdgeSelector := ⟨key.source, key.target, some key.kind⟩

/-- Selects every edge between two nodes. -/
def any (source target : String) : EdgeSelector := ⟨source, target, none⟩

/-- The name of the relation, or a star. -/
def kindName (s : EdgeSelector) : String := s.kind.elim "*" EdgeKind.name

/-- The selector in running text. -/
def display (s : EdgeSelector) : String :=
  "(" ++ s.source ++ ", " ++ s.target ++ ", " ++ s.kindName ++ ")"

end EdgeSelector

end ProgramGraph
