import GraphTraversal.Bytecode.Basic

/-! # Strategies

The built-in strategies, and audits, which look at pipelines without changing them.
-/

namespace GraphTraversal

/-! ## Configurations -/

/-- Puts an entry in its place among entries sorted by key; an entry under the same key gives way. -/
def configureEntry (key : String) (value : Argument) :
    List (String × Argument) → List (String × Argument)
  | [] => [(key, value)]
  | (k, v) :: l =>
    if key = k then (key, value) :: l
    else if key < k then (key, value) :: (k, v) :: l
    else (k, v) :: configureEntry key value l

/-- A configuration from its entries; of entries under one key the last counts. -/
def configure (entries : List (String × Argument)) : List (String × Argument) :=
  entries.foldl (fun sorted p => configureEntry p.1 p.2 sorted) []

/-- A child traversal with its record: what a strategy needs of a criterion. -/
structure Criterion where
  pipeline : Pipeline
  bytecode : Bytecode

namespace Strategy

def setting? (s : Strategy) (key : String) : Option Argument :=
  (s.configuration.find? fun p => p.1 = key).map (·.2)

def integerSetting? (s : Strategy) (key : String) : Option Int64 :=
  ((s.setting? key).bind (·.resolve?)).bind (·.integer?)

def identityRemoval : Strategy where
  name := "IdentityRemovalStrategy"
  category := .optimization
  behaviour := .removeIdentities

/-- Turns a walk to an edge and on to its other end into one step. -/
def incidentToAdjacent : Strategy where
  name := "IncidentToAdjacentStrategy"
  category := .optimization
  prior := ["IdentityRemovalStrategy"]
  behaviour := .fuseEdgeWalks

def subgraph (vertices edges : Option Criterion) : Strategy where
  name := "SubgraphStrategy"
  category := .decoration
  configuration := configure <|
    (vertices.map fun c => ("vertices", Argument.traversal c.bytecode)).toList ++
      (edges.map fun c => ("edges", Argument.traversal c.bytecode)).toList
  behaviour := .hideOutside (vertices.map (·.pipeline)) (edges.map (·.pipeline))

def vertexProgram (workers : Option Nat) : Strategy where
  name := "VertexProgramStrategy"
  category := .decoration
  configuration := (workers.map fun n => ("workers", Argument.literal (.ofSize n))).toList
  behaviour := .markComputer workers

def readOnly : Strategy where
  name := "ReadOnlyStrategy"
  category := .verification
  behaviour := .forbidMutation

def lambdaRestriction : Strategy where
  name := "LambdaRestrictionStrategy"
  category := .verification
  behaviour := .forbidLambdas

def audit (name : String) (category : Category) (prior post : List String)
    (configuration : List (String × Argument)) (forbidden : Option String) : Strategy where
  name
  category
  prior
  post
  configuration := configure configuration
  behaviour := .audit forbidden

end Strategy

end GraphTraversal
