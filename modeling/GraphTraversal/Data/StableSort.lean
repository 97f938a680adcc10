/-! # Sorting by insertion

Elements are inserted one after another; each moves left only past elements that it is strictly
before, so equal ones keep their order.
-/

namespace GraphTraversal

variable {α : Type}

/-- Inserts into a list that is sorted from last to first. -/
def insertFromEnd (before : α → α → Bool) (x : α) : List α → List α
  | [] => [x]
  | y :: ys => if before x y then y :: insertFromEnd before x ys else x :: y :: ys

/-- Inserts elements one after another behind those of a list in order. -/
def insertEach (before : α → α → Bool) (sorted l : List α) : List α :=
  (l.foldl (fun sorted x => insertFromEnd before x sorted) sorted.reverse).reverse

/-- The list in order, equal elements in the order in which they stand. -/
def stableSort (before : α → α → Bool) (l : List α) : List α := insertEach before [] l

end GraphTraversal
