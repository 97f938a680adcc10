import GraphTraversal.Strategy.Builtin

/-! # Applying a strategy

A strategy first judges a pipeline and all its open children, and then gives each of them a new shape.
Judging goes level by level: the steps of a pipeline from left to right, then the children of its
steps in order, each in the same way.  Reshaping looks only at the steps of one level and leaves their
children as they are, so it can begin at the bottom of the tree.
-/

namespace GraphTraversal

/-! ## The levels of a pipeline -/

mutual

/-- The step lists of a pipeline and of its open children at every depth, a pipeline before its
children. -/
def Pipeline.levels : Pipeline → List (List Step)
  | ⟨steps, _⟩ => steps :: Step.levelsOfAll steps

def Step.levelsOfAll : List Step → List (List Step)
  | [] => []
  | s :: l => s.levels ++ Step.levelsOfAll l

def Step.levels : Step → List (List Step)
  | .filter _ (some _) => []
  | .filter child none => child.levels
  | .and children => Pipeline.levelsOfAll children
  | .repeat child _ => child.levels
  | .choose (.lambda _ yes no) _ => yes.levels ++ no.levels
  | .choose (.predicate test yes no) _ => test.levels ++ (yes.levels ++ no.levels)
  | .choose (.selector pick options fallback) _ =>
    pick.levels ++ Decision.levelsOfOptions options ++
      (match fallback with
        | none => []
        | some child => child.levels)
  | .groupCount ⟨items, _⟩ => Pipeline.levelsOfAll items
  | .project _ ⟨items, _⟩ => Pipeline.levelsOfAll items
  | .order comparators => Comparator.levelsOfAll comparators
  | .vertices _ | .adjacent .. | .incident .. | .endpoint _ | .hasLabel _ | .has .. | .values _
  | .valueMap | .label | .id | .identity | .count | .is _ | .limit _ | .unfold | .select _
  | .addVertex _ | .property .. | .drop => []

def Pipeline.levelsOfAll : List Pipeline → List (List Step)
  | [] => []
  | p :: l => p.levels ++ Pipeline.levelsOfAll l

def Decision.levelsOfOptions : List (Value × Pipeline) → List (List Step)
  | [] => []
  | (_, p) :: l => p.levels ++ Decision.levelsOfOptions l

def Comparator.levelsOfAll : List Comparator → List (List Step)
  | [] => []
  | .by p :: l => p.levels ++ Comparator.levelsOfAll l
  | .self _ :: l => Comparator.levelsOfAll l

end

mutual

/-- Applies `f` to a pipeline and to its open children at every depth, the children first. -/
def Pipeline.mapLevels (f : Pipeline → Pipeline) : Pipeline → Pipeline
  | ⟨steps, mode⟩ => f ⟨Step.mapLevelsOfAll f steps, mode⟩

def Step.mapLevelsOfAll (f : Pipeline → Pipeline) : List Step → List Step
  | [] => []
  | s :: l => s.mapLevels f :: Step.mapLevelsOfAll f l

def Step.mapLevels (f : Pipeline → Pipeline) : Step → Step
  | .filter child (some name) => .filter child (some name)
  | .filter child none => .filter (child.mapLevels f) none
  | .and children => .and (Pipeline.mapLevelsOfAll f children)
  | .repeat child times => .repeat (child.mapLevels f) times
  | .choose (.lambda test yes no) phase =>
    .choose (.lambda test (yes.mapLevels f) (no.mapLevels f)) phase
  | .choose (.predicate test yes no) phase =>
    .choose (.predicate (test.mapLevels f) (yes.mapLevels f) (no.mapLevels f)) phase
  | .choose (.selector pick options fallback) phase =>
    .choose (.selector (pick.mapLevels f) (Decision.mapLevelsOfOptions f options)
      (match fallback with
        | none => none
        | some child => some (child.mapLevels f))) phase
  | .groupCount ⟨items, cursor⟩ => .groupCount ⟨Pipeline.mapLevelsOfAll f items, cursor⟩
  | .project names ⟨items, cursor⟩ => .project names ⟨Pipeline.mapLevelsOfAll f items, cursor⟩
  | .order comparators => .order (Comparator.mapLevelsOfAll f comparators)
  | .vertices ids => .vertices ids
  | .adjacent d labels => .adjacent d labels
  | .incident d labels => .incident d labels
  | .endpoint d => .endpoint d
  | .hasLabel labels => .hasLabel labels
  | .has key value => .has key value
  | .values keys => .values keys
  | .valueMap => .valueMap
  | .label => .label
  | .id => .id
  | .identity => .identity
  | .count => .count
  | .is value => .is value
  | .limit quota => .limit quota
  | .unfold => .unfold
  | .select c => .select c
  | .addVertex text => .addVertex text
  | .property key value => .property key value
  | .drop => .drop

def Pipeline.mapLevelsOfAll (f : Pipeline → Pipeline) : List Pipeline → List Pipeline
  | [] => []
  | p :: l => p.mapLevels f :: Pipeline.mapLevelsOfAll f l

def Decision.mapLevelsOfOptions (f : Pipeline → Pipeline) :
    List (Value × Pipeline) → List (Value × Pipeline)
  | [] => []
  | (token, p) :: l => (token, p.mapLevels f) :: Decision.mapLevelsOfOptions f l

def Comparator.mapLevelsOfAll (f : Pipeline → Pipeline) : List Comparator → List Comparator
  | [] => []
  | .by p :: l => .by (p.mapLevels f) :: Comparator.mapLevelsOfAll f l
  | .self order :: l => .self order :: Comparator.mapLevelsOfAll f l

end

/-! ## One level -/

def Step.isIdentity : Step → Bool
  | .identity => true
  | _ => false

/-- Drops identities; a pipeline of one step is left alone. -/
def removeIdentities (steps : List Step) : List Step :=
  if 1 < steps.length then steps.filter fun s => !s.isIdentity else steps

/-- Fuses a step to an edge and a step to the other end of it into one. -/
def fuseEdgeWalks : List Step → List Step
  | .incident d labels :: .endpoint e :: l =>
    if d ≠ .both ∧ e = d.opposite then .adjacent d labels :: fuseEdgeWalks l
    else .incident d labels :: fuseEdgeWalks (.endpoint e :: l)
  | s :: l => s :: fuseEdgeWalks l
  | [] => []

namespace Strategy

def subgraphName : String := "SubgraphStrategy"

end Strategy

def criterionFilter (criterion : Option Pipeline) : List Step :=
  (criterion.map fun p => Step.filter p (some Strategy.subgraphName)).toList

def isCriterionFilter : Step → Bool
  | .filter _ (some name) => name == Strategy.subgraphName
  | _ => false

/-- A step followed by the filters for what it emits.  A step to neighbours becomes two, so that the
edges walked are filtered as well. -/
def hideAfter (vertices edges : Option Pipeline) (s : Step) : List Step :=
  match s, edges with
  | .adjacent .outward labels, some _ =>
    .incident .outward labels :: criterionFilter edges ++
      .endpoint .inward :: criterionFilter vertices
  | .adjacent .inward labels, some _ =>
    .incident .inward labels :: criterionFilter edges ++
      .endpoint .outward :: criterionFilter vertices
  | s, _ =>
    s :: match s.produces with
      | .vertices => criterionFilter vertices
      | .edges => criterionFilter edges
      | .other => []

/-- Puts filters after the steps that emit elements, unless one stands there already. -/
def hideOutside (vertices edges : Option Pipeline) : List Step → List Step
  | [] => []
  | s :: l =>
    (if l.head?.any isCriterionFilter then [s] else hideAfter vertices edges s) ++
      hideOutside vertices edges l

namespace Behaviour

def reshape : Behaviour → Pipeline → Pipeline
  | .removeIdentities, p => { p with steps := GraphTraversal.removeIdentities p.steps }
  | .fuseEdgeWalks, p => { p with steps := GraphTraversal.fuseEdgeWalks p.steps }
  | .hideOutside vertices edges, p =>
    { p with steps := GraphTraversal.hideOutside vertices edges p.steps }
  | .markComputer workers, p => { p with mode := .computer workers }
  | .forbidMutation, p | .forbidLambdas, p | .audit _, p => p

/-- What is wrong with the steps of one level: the first offending step. -/
def violation? : Behaviour → List Step → Option Violation
  | .forbidMutation, l => (l.find? (·.isMutating)).map fun s => .mutates s.name
  | .forbidLambdas, l => (l.find? (·.usesLambda)).map fun s => .usesLambda s.name
  | .audit (some name), l => if l.any fun s => s.name = name then some (.forbidden name) else none
  | _, _ => none

end Behaviour

/-! ## Whole pipelines -/

/-- What came of applying strategies: the pipeline, the error that ended it, and the levels that
audits were shown. -/
structure Report where
  pipeline : Pipeline
  failure : Option Error := none
  visits : List (String × List Step) := []

namespace Strategy

def fault? (s : Strategy) (level : List Step) : Option Error :=
  (s.behaviour.violation? level).map (.verification s.name)

/-- The levels that a strategy is shown: all, or those up to the first with a fault. -/
def shownLevels (s : Strategy) : List (List Step) → List (List Step)
  | [] => []
  | level :: l => if (s.fault? level).isSome then [level] else level :: s.shownLevels l

def visits (s : Strategy) (p : Pipeline) : List (String × List Step) :=
  match s.behaviour with
  | .audit _ => (s.shownLevels p.levels).map (s.name, ·)
  | _ => []

/-- Applies a strategy to a pipeline and its open children.  Strategies that can fail leave every
pipeline as it is. -/
def applyTo (s : Strategy) (p : Pipeline) : Report where
  pipeline := p.mapLevels s.behaviour.reshape
  failure := p.levels.findSome? s.fault?
  visits := s.visits p

/-- Applies strategies one after another, up to the first that fails. -/
def applyAll : List Strategy → Pipeline → Report
  | [], p => { pipeline := p }
  | s :: l, p =>
    let report := s.applyTo p
    if report.failure.isSome then report
    else
      let rest := applyAll l report.pipeline
      { rest with visits := report.visits ++ rest.visits }

end Strategy

end GraphTraversal
