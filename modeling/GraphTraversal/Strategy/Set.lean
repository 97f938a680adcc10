import GraphTraversal.Strategy.Application

/-! # Sets of strategies

A set keeps its strategies in the order in which they are applied: by category, then as the strategies
demand of each other, then by time of registration.  Demands that contradict each other or the
categories form a cycle, and a strategy that closes one is refused.
-/

namespace GraphTraversal

namespace Strategy

def precedes (s t : Strategy) : Bool :=
  s.category.rank < t.category.rank || t.prior.contains s.name || s.post.contains t.name

end Strategy

/-! ## Ordering -/

def takeFirst? {α : Type} (p : α → Bool) : List α → Option (α × List α)
  | [] => none
  | x :: l => if p x then some (x, l) else (takeFirst? p l).map fun (y, rest) => (y, x :: rest)

def isReady (waiting : List Strategy) (t : Strategy) : Bool :=
  waiting.all fun s => !s.precedes t

/-- Places strategies one after another, always the first ready one.  Two ready strategies are of one
category, so the first is the one registered first.  Returns those placed and those that never become
ready; the bound is the number of strategies. -/
def placeReady : Nat → List Strategy → List Strategy × List Strategy
  | 0, waiting => ([], waiting)
  | n + 1, waiting =>
    match takeFirst? (isReady waiting) waiting with
    | none => ([], waiting)
    | some (s, rest) =>
      let (placed, stuck) := placeReady n rest
      (s :: placed, stuck)

/-- Drops strategies that precede no other of the list, again and again. -/
def dropSinks : Nat → List Strategy → List Strategy
  | 0, l => l
  | n + 1, l =>
    let kept := l.filter fun s => l.any s.precedes
    if kept.length = l.length then l else dropSinks n kept

/-- The strategies in order of application, given in order of registration. -/
def arrange (candidates : List Strategy) : Except Error (List Strategy) :=
  match placeReady candidates.length candidates with
  | (placed, []) => .ok placed
  | (_, stuck) => .error (.strategyCycle ((dropSinks stuck.length stuck).map (·.name)))

/-! ## Sets -/

/-- Strategies in order of application, no two of one name. -/
structure StrategySet where
  members : List Strategy := []

namespace StrategySet

def empty : StrategySet := {}

instance : Inhabited StrategySet := ⟨empty⟩

/-- The optimizations that every source starts with. -/
def standard : StrategySet := ⟨[.identityRemoval, .incidentToAdjacent]⟩

def names (set : StrategySet) : List String := set.members.map (·.name)

def get? (set : StrategySet) (name : String) : Option Strategy :=
  set.members.find? fun s => s.name = name

def contains (set : StrategySet) (name : String) : Bool := (set.get? name).isSome

/-- Adds a strategy, in place of one of the same name. -/
def add (set : StrategySet) (s : Strategy) : Except Error StrategySet :=
  (arrange (set.members.filter (fun t => t.name ≠ s.name) ++ [s])).map (⟨·⟩)

def remove (set : StrategySet) (name : String) : StrategySet :=
  ⟨set.members.filter fun s => s.name ≠ name⟩

/-- Two sets are equal when they hold equal strategies in the same order. -/
instance : BEq StrategySet := ⟨fun a b => a.members == b.members⟩

def apply (set : StrategySet) (p : Pipeline) : Report := Strategy.applyAll set.members p

end StrategySet

end GraphTraversal
