import Mathlib.Data.List.Basic
import GraphTraversal.Data.Ring

/-! # Turns of a ring

What a ring hands out next, and what becomes of its elements when the one handed out is replaced.
-/

namespace GraphTraversal.Ring

variable {α β : Type}

/-- The place of the element whose turn it is. -/
def turn (r : Ring α) : Nat :=
  match r.cursor with
  | none => 0
  | some i => (i + 1) % r.items.length

theorem next?_eq {r : Ring α} (h : r.items ≠ []) :
    r.next? = r.items[r.turn]?.map (·, ⟨r.items, some r.turn⟩) := by
  rcases r with ⟨items, cursor⟩
  have hempty : items.isEmpty = false := by simpa using h
  cases cursor <;> simp [next?, advance, current?, hempty, turn]

theorem map_items_setCurrent (f : α → β) {items : List α} {i : Nat} {x y : α}
    (hy : items[i]? = some y) (h : f x = f y) :
    (setCurrent ⟨items, some i⟩ x).items.map f = items.map f := by
  simp only [setCurrent, List.map_set, h]
  apply List.ext_getElem?
  intro j
  rw [List.getElem?_set]
  by_cases hij : i = j
  · rw [if_pos hij]
    subst hij
    obtain ⟨hi, rfl⟩ := List.getElem?_eq_some_iff.1 hy
    simp [hi]
  · rw [if_neg hij]

end GraphTraversal.Ring
