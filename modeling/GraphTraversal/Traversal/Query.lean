import GraphTraversal.Step.Evaluation
import GraphTraversal.Strategy.Set
import GraphTraversal.Traversal.Clause

/-! # Running a traversal

A query is a traversal with the strategies it was given and the progress of its own run.  The first
pull applies the strategies and starts the run; a failure to do so is delivered once and ends it.
Looking ahead keeps the result for the next pull.  A query that is not bound to a graph cannot run.
-/

namespace GraphTraversal

inductive Progress where
  | pending
  | running (flow : Flow)
  | finished

structure Query where
  traversal : Traversal
  strategies : StrategySet := {}
  bound : Bool := false
  /-- Whether the strategies have been applied without failure. -/
  prepared : Bool := false
  progress : Progress := .pending
  /-- A result that was looked at and not yet delivered. -/
  peeked : Option Value := none

structure Answer (α : Type) where
  value : α
  query : Query
  graph : Graph

namespace Query

instance : Inhabited Query := ⟨{ traversal := {} }⟩

def anonymous (t : Traversal) : Query := { traversal := t }

/-- Replaces the pipeline; the bytecode stays. -/
def withPipeline (q : Query) (p : Pipeline) : Query :=
  { q with traversal := { q.traversal with pipeline := p } }

/-- Makes more builder calls, whatever the progress. -/
def extend (q : Query) (clauses : List Clause) : Except Error Query :=
  (q.traversal.extend clauses).map fun t => { q with traversal := t }

/-- Applies a set of strategies to the pipeline, whatever the progress. -/
def applySet (q : Query) (set : StrategySet) : Query × Report :=
  let report := set.apply q.traversal.pipeline
  (q.withPipeline report.pipeline, report)

/-- Applies the query's own strategies, unless they have been applied without failure before. -/
def applyStrategies (q : Query) : Query × Report :=
  if q.prepared then (q, { pipeline := q.traversal.pipeline })
  else
    let (q, report) := q.applySet q.strategies
    ({ q with prepared := report.failure.isNone }, report)

def prepare (q : Query) : Query × Option Error :=
  if !q.bound then ({ q with progress := .finished }, some (.execution .unbound))
  else
    let (q, report) := q.applyStrategies
    match report.failure with
    | some e => ({ q with progress := .finished }, some e)
    | none =>
      let flow := Flow.start [.null] q.traversal.pipeline.steps.length
      ({ q with progress := .running flow }, none)

def advance (q : Query) (g : Graph) : Answer (Option (Except Error Value)) :=
  match q.progress with
  | .running flow =>
    let p := q.traversal.pipeline
    let o := flow.pull p.machine p.steps g
    let q := q.withPipeline { p with steps := o.steps }
    match o.result with
    | none => ⟨none, { q with progress := .finished }, o.graph⟩
    | some r => ⟨some r, { q with progress := .running o.flow }, o.graph⟩
  | _ => ⟨none, q, g⟩

/-- Takes the next result of the run, starting it first if need be. -/
def pull (q : Query) (g : Graph) : Answer (Option (Except Error Value)) :=
  match q.progress with
  | .pending =>
    match q.prepare with
    | (q, some e) => ⟨some (.error e), q, g⟩
    | (q, none) => q.advance g
  | _ => q.advance g

def next (q : Query) (g : Graph) : Answer (Option (Except Error Value)) :=
  match q.peeked with
  | some v => ⟨some (.ok v), { q with peeked := none }, g⟩
  | none => q.pull g

/-- Whether there is a next value.  An error met on the way is delivered here and not again. -/
def hasNext (q : Query) (g : Graph) : Answer (Except Error Bool) :=
  if q.peeked.isSome then ⟨.ok true, q, g⟩
  else
    let o := q.pull g
    match o.value with
    | some (.ok v) => ⟨.ok true, { o.query with peeked := some v }, o.graph⟩
    | some (.error e) => ⟨.error e, o.query, o.graph⟩
    | none => ⟨.ok false, o.query, o.graph⟩

/-! ## Draining

A run that is drained need not be suspended between results, so its steps are run once to the end or
to the first error. -/

def drainRun (q : Query) (g : Graph) : Except Error (List Value) × Graph :=
  match q.progress with
  | .running flow =>
    let p := q.traversal.pipeline
    let o := allRemaining p.machine p.steps flow g
    (o.result, o.graph)
  | _ => (.ok [], g)

def drain (q : Query) (g : Graph) : Except Error (List Value) × Graph :=
  match q.progress with
  | .pending =>
    match q.prepare with
    | (_, some e) => (.error e, g)
    | (q, none) => q.drainRun g
  | _ => q.drainRun g

/-- All values from here on, or the first error. -/
def toList (q : Query) (g : Graph) : Except Error (List Value) × Graph :=
  let (result, g) := q.drain g
  (result.map (q.peeked.toList ++ ·), g)

/-- Runs a query for its effects, up to the first error. -/
def iterate (q : Query) (g : Graph) : Except Error Unit × Graph :=
  let (result, g) := q.toList g
  (result.map fun _ => (), g)

end Query

end GraphTraversal
