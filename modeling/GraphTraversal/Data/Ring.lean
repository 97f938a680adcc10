/-! # Rings

A ring hands out its elements in turn.  The cursor stands on the element handed out last; it is unset
before the first one and after a reset.
-/

namespace GraphTraversal

/-- Elements handed out round robin. -/
structure Ring (α : Type) where
  items : List α := []
  cursor : Option Nat := none
deriving DecidableEq

namespace Ring

variable {α : Type}

/-- A ring whose rotation has not begun. -/
def ofList (items : List α) : Ring α := { items }

/-- Moves the cursor to the element whose turn it is; nothing moves in an empty ring. -/
def advance (r : Ring α) : Ring α :=
  if r.items.isEmpty then r
  else
    { r with
      cursor := some <| match r.cursor with
        | none => 0
        | some i => (i + 1) % r.items.length }

def current? (r : Ring α) : Option α := r.cursor.bind fun i => r.items[i]?

/-- Hands out the element whose turn it is. -/
def next? (r : Ring α) : Option (α × Ring α) :=
  if r.items.isEmpty then none else r.advance.current?.map (·, r.advance)

def setCurrent (r : Ring α) (x : α) : Ring α :=
  { r with items := match r.cursor with
      | none => r.items
      | some i => r.items.set i x }

def reset (r : Ring α) : Ring α := { r with cursor := none }

/-- Adds an element after all others; the cursor stays. -/
def push (r : Ring α) (x : α) : Ring α := { r with items := r.items ++ [x] }

end Ring

end GraphTraversal
