import GraphTraversal.Traversal.Query

/-! # Sources

A source holds the strategies and the source instructions that every query made from it starts with.
Each change of its configuration is recorded.
-/

namespace GraphTraversal

structure Source where
  strategies : StrategySet := .standard
  bytecode : Bytecode := {}

namespace Source

instance : Inhabited Source := ⟨{}⟩

def standard : Source := {}

/-- A source with the given strategies.  Optimizations stay unrecorded, as they are for the standard
source. -/
def ofStrategies (set : StrategySet) : Source where
  strategies := set
  bytecode := (set.members.filter fun s => s.category ≠ .optimization).foldl
    (fun code s => code.addSource "withStrategies" [.strategy s]) {}

def withStrategy (src : Source) (s : Strategy) : Except Error Source :=
  (src.strategies.add s).map fun set =>
    { strategies := set, bytecode := src.bytecode.addSource "withStrategies" [.strategy s] }

def withComputer (src : Source) (workers : Option Nat) : Except Error Source :=
  src.withStrategy (.vertexProgram workers)

/-- Removes strategies by name; names that are absent are recorded all the same. -/
def withoutStrategies (src : Source) (names : List String) : Source where
  strategies := names.foldl StrategySet.remove src.strategies
  bytecode := src.bytecode.addSource "withoutStrategies" (names.map fun n => .literal (.string n))

/-- A query of the source with a traversal that continues its record. -/
def query (src : Source) (t : Traversal) : Query :=
  { traversal := t, strategies := src.strategies, bound := true }

/-- The traversal without steps that carries the source's record. -/
def start (src : Source) : Traversal := { bytecode := src.bytecode }

def build (src : Source) (clauses : List Clause) : Except Error Query :=
  (src.start.extend clauses).map src.query

end Source

end GraphTraversal
