import GraphTraversal.Graph.Basic

/-! # Tokens and lambdas

Named constants and named predicates that may stand as arguments of an instruction.
-/

namespace GraphTraversal

inductive Column where
  | keys
  | values
deriving DecidableEq

inductive SortOrder where
  | ascending
  | descending
deriving DecidableEq

/-- A constant among the arguments of an instruction; `otherwise` marks the fallback branch of a
choice. -/
inductive Token where
  | column (c : Column)
  | order (o : SortOrder)
  | otherwise
deriving DecidableEq

def Token.text : Token → String
  | .column .keys => "keys"
  | .column .values => "values"
  | .order .ascending => "asc"
  | .order .descending => "desc"
  | .otherwise => "none"

/-- A test of the values that travel over a graph.  It has the graph itself in hand and may write to
it. -/
structure Closure where
  holds : Graph → Value → Bool
  /-- The graph that the test leaves. -/
  leaves : Graph → Value → Graph := fun g _ => g

instance : Coe (Graph → Value → Bool) Closure := ⟨fun holds => { holds }⟩

/-- A named test.  The name is its identity. -/
structure Lambda where
  name : String
  closure : Closure

instance : BEq Lambda := ⟨fun a b => a.name == b.name⟩

namespace Lambda

def text (l : Lambda) : String := "lambda[" ++ l.name ++ "]"

def test (l : Lambda) : Graph → Value → Bool := l.closure.holds

def leaves (l : Lambda) : Graph → Value → Graph := l.closure.leaves

end Lambda

end GraphTraversal
