import GraphTraversal.Data.Ring
import GraphTraversal.Token

/-! # Steps and pipelines

A pipeline is a list of steps.  Some steps carry pipelines of their own, their children, so steps and
pipelines form a tree.
-/

namespace GraphTraversal

/-- Where a pipeline is meant to run.  Evaluation is serial either way. -/
inductive Mode where
  | standard
  | computer (workers : Option Nat)
deriving DecidableEq

/-- How far a choice has come with the input at hand. -/
inductive Phase where
  | unevaluated
  | selecting
  | routed
  | done
deriving DecidableEq

mutual

structure Pipeline where
  steps : List Step := []
  mode : Mode := .standard

inductive Step where
  /-- Every vertex, or the listed ones, for each input. -/
  | vertices (ids : List Value)
  | adjacent (direction : Direction) (labels : List String)
  | incident (direction : Direction) (labels : List String)
  | endpoint (direction : Direction)
  | hasLabel (labels : List String)
  | has (key : String) (value : Value)
  | values (keys : List String)
  | valueMap
  | label
  | id
  | identity
  | count
  | is (value : Value)
  | limit (quota : Nat)
  | unfold
  | select (column : Column)
  /-- Keeps an input for which the child yields something; `injectedBy` names the strategy that put
  the filter there. -/
  | filter (child : Pipeline) (injectedBy : Option String)
  /-- Keeps an input for which every child yields something. -/
  | and (children : List Pipeline)
  /-- Feeds the results of the child back into it, `times` rounds in all. -/
  | repeat (child : Pipeline) (times : Option Nat)
  | choose (decision : Decision) (phase : Phase)
  | groupCount (keys : Ring Pipeline)
  | project (names : List String) (values : Ring Pipeline)
  | order (comparators : List Comparator)
  | addVertex (label : String)
  | property (key : String) (value : Value)
  | drop

inductive Decision where
  | lambda (test : Lambda) (yes no : Pipeline)
  | predicate (test yes no : Pipeline)
  /-- Compares the one result of the selector with the options, first match first. -/
  | selector (pick : Pipeline) (options : List (Value × Pipeline)) (fallback : Option Pipeline)

/-- One sort key: the first result of a child, ascending, or the input itself. -/
inductive Comparator where
  | by (child : Pipeline)
  | self (order : SortOrder)

end

instance : Inhabited Pipeline := ⟨{}⟩

inductive Produces where
  | vertices
  | edges
  | other
deriving DecidableEq

/-! ## Children -/

namespace Decision

def options : Decision → List (Value × Pipeline)
  | .lambda _ yes no | .predicate _ yes no => [(.boolean true, yes), (.boolean false, no)]
  | .selector _ options _ => options

def fallback? : Decision → Option Pipeline
  | .lambda .. | .predicate .. => none
  | .selector _ _ fallback => fallback

def lambda? : Decision → Option Lambda
  | .lambda test _ _ => some test
  | .predicate .. | .selector .. => none

/-- The pipelines of a choice: the test or selector, then the branches, then the fallback. -/
def children : Decision → List Pipeline
  | .lambda _ yes no => [yes, no]
  | .predicate test yes no => [test, yes, no]
  | .selector pick options fallback => pick :: options.map (·.2) ++ fallback.toList

end Decision

def Comparator.child? : Comparator → Option Pipeline
  | .by child => some child
  | .self _ => none

def Comparator.sortOrder : Comparator → SortOrder
  | .by _ => .ascending
  | .self o => o

namespace Step

def children : Step → List Pipeline
  | .filter child _ => [child]
  | .and children => children
  | .repeat child _ => [child]
  | .choose decision _ => decision.children
  | .groupCount ring => ring.items
  | .project _ ring => ring.items
  | .order comparators => comparators.filterMap (·.child?)
  | _ => []

/-- The children open to strategies; a filter that a strategy put there keeps its own closed. -/
def openChildren : Step → List Pipeline
  | .filter _ (some _) => []
  | s => s.children

/-! ## Classification -/

def name : Step → String
  | .vertices _ => "V"
  | .adjacent .outward _ => "out"
  | .adjacent .inward _ => "in"
  | .adjacent .both _ => "both"
  | .incident .outward _ => "outE"
  | .incident .inward _ => "inE"
  | .incident .both _ => "bothE"
  | .endpoint .outward => "outV"
  | .endpoint .inward => "inV"
  | .endpoint .both => "bothV"
  | .hasLabel _ => "hasLabel"
  | .has .. => "has"
  | .values _ => "values"
  | .valueMap => "valueMap"
  | .label => "label"
  | .id => "id"
  | .identity => "identity"
  | .count => "count"
  | .is _ => "is"
  | .limit _ => "limit"
  | .unfold => "unfold"
  | .select _ => "select"
  | .filter .. => "filter"
  | .and _ => "and"
  | .repeat .. => "repeat"
  | .choose .. => "choose"
  | .groupCount _ => "groupCount"
  | .project .. => "project"
  | .order _ => "order"
  | .addVertex _ => "addV"
  | .property .. => "property"
  | .drop => "drop"

def produces : Step → Produces
  | .vertices _ | .adjacent .. | .endpoint _ => .vertices
  | .incident .. => .edges
  | _ => .other

def isMutating : Step → Bool
  | .addVertex _ | .property .. | .drop => true
  | _ => false

def usesLambda : Step → Bool
  | .choose (.lambda ..) _ => true
  | _ => false

def lambda? : Step → Option Lambda
  | .choose decision _ => decision.lambda?
  | _ => none

/-- Whether the step gathers all inputs before it emits. -/
def isBarrier : Step → Bool
  | .count | .groupCount _ | .order _ => true
  | _ => false

end Step

def Pipeline.text (p : Pipeline) : String :=
  "[" ++ ", ".intercalate (p.steps.map (·.name)) ++ "]"

/-! ## Height -/

mutual

def Pipeline.height : Pipeline → Nat
  | ⟨steps, _⟩ => Step.heights steps

def Step.heights : List Step → Nat
  | [] => 0
  | s :: l => max s.height (Step.heights l)

/-- One more than the height of the highest child. -/
def Step.height : Step → Nat
  | .filter child _ => child.height + 1
  | .and children => Pipeline.heights children + 1
  | .repeat child _ => child.height + 1
  | .choose (.lambda _ yes no) _ => max yes.height no.height + 1
  | .choose (.predicate test yes no) _ => max test.height (max yes.height no.height) + 1
  | .choose (.selector pick options fallback) _ =>
    max pick.height (max (Decision.optionHeights options)
      (match fallback with
        | none => 0
        | some child => child.height)) + 1
  | .groupCount ⟨items, _⟩ => Pipeline.heights items + 1
  | .project _ ⟨items, _⟩ => Pipeline.heights items + 1
  | .order comparators => Comparator.heights comparators + 1
  | .vertices _ | .adjacent .. | .incident .. | .endpoint _ | .hasLabel _ | .has .. | .values _
  | .valueMap | .label | .id | .identity | .count | .is _ | .limit _ | .unfold | .select _
  | .addVertex _ | .property .. | .drop => 1

def Pipeline.heights : List Pipeline → Nat
  | [] => 0
  | p :: l => max p.height (Pipeline.heights l)

def Decision.optionHeights : List (Value × Pipeline) → Nat
  | [] => 0
  | (_, p) :: l => max p.height (Decision.optionHeights l)

def Comparator.heights : List Comparator → Nat
  | [] => 0
  | .by p :: l => max p.height (Comparator.heights l)
  | .self _ :: l => Comparator.heights l

end

end GraphTraversal
