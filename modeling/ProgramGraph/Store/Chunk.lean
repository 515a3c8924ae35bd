set_option autoImplicit false

/-! # Pieces of a list

Bulk work is done piece by piece. Cutting a list loses nothing and keeps its order.
-/

namespace ProgramGraph

/-- Cuts off one piece of a length after the other, at most `bound` of them. -/
def cutPieces {α : Type} (length : Nat) : Nat → List α → List (List α)
  | 0, _ => []
  | _, [] => []
  | bound + 1, items => items.take length :: cutPieces length bound (items.drop length)

/-- The items in their order, in pieces of the batch size, the last of which may be shorter. A
batch holds at least one item, so there are at most as many pieces as items. -/
def chunks {α : Type} (batchSize : UInt64) (items : List α) : List (List α) :=
  cutPieces (max batchSize.toNat 1) items.length items

end ProgramGraph
