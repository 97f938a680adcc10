import GraphTraversal.Graph.Basic

/-! # Runs that can be suspended

A run hands results to a consumer one at a time, and the consumer says after each whether it wants
another.  Nothing is evaluated before it is wanted: a step takes one input, expands it, and goes on to
the next input only when all it made of the first has been handed over.  What the consumer did not
take stays in the stage of its step, so a later run goes on exactly there.

A barrier is the only step that takes all its inputs first.  A limit takes nothing once its quota is
met.  An error fails the one input that caused it; it is handed over like a result.
-/

namespace GraphTraversal

structure Outcome (σ α : Type) where
  result : Except Error α
  state : σ
  graph : Graph

inductive Kind where
  | expanding
  | gathering
  | limiting (quota : Nat)

/-- How steps act: `expand` on one input, `release` on all that a barrier has gathered. -/
structure Machine (σ : Type) where
  kind : σ → Kind
  expand : σ → Value → Graph → Outcome σ (List Value)
  release : σ → List Value → Graph → Outcome σ (List Value)

/-- What a step has produced and not handed on, and what it has seen so far. -/
structure Stage where
  buffer : List Value := []
  /-- Inputs of a barrier, the latest first. -/
  gathered : List Value := []
  /-- Values let through by a limit. -/
  emitted : Nat := 0
  exhausted : Bool := false
deriving DecidableEq

def Stage.fresh : Stage := {}

structure Cell (σ : Type) where
  step : σ
  stage : Stage

/-- What a consumer answers to a result: its new state, the graph, and whether it wants more. -/
structure Reply (α : Type) where
  state : α
  graph : Graph
  more : Bool

abbrev Consumer (α : Type) := α → Graph → Except Error Value → Reply α

/-- Hands values over until the consumer has enough, and keeps the rest. -/
def offer {α : Type} (c : Consumer α) : List Value → α → Graph → Reply α × List Value
  | [], a, g => (⟨a, g, true⟩, [])
  | v :: l, a, g =>
    let r := c a g (.ok v)
    if r.more then offer c l r.state r.graph else (r, l)

/-- The state of a run after it was suspended or ended; `reply.more` says that it ended. -/
structure Run (σ α : Type) where
  cells : List (Cell σ)
  source : List Value
  reply : Reply α

section Consumers

variable {σ α : Type}

def expandInto (m : Machine σ) (c : Consumer α) : Consumer (α × Cell σ) :=
  fun (a, x) g r =>
    match r with
    | .error e =>
      let reply := c a g (.error e)
      ⟨(reply.state, x), reply.graph, reply.more⟩
    | .ok v =>
      let o := m.expand x.step v g
      let x := { x with step := o.state }
      match o.result with
      | .error e =>
        let reply := c a o.graph (.error e)
        ⟨(reply.state, x), reply.graph, reply.more⟩
      | .ok l =>
        let (reply, rest) := offer c l a o.graph
        ⟨(reply.state, { x with stage := { x.stage with buffer := rest } }), reply.graph,
          reply.more⟩

def gatherInto (c : Consumer α) : Consumer (α × Cell σ) :=
  fun (a, x) g r =>
    match r with
    | .error e =>
      let reply := c a g (.error e)
      ⟨(reply.state, x), reply.graph, reply.more⟩
    | .ok v =>
      ⟨(a, { x with stage := { x.stage with gathered := v :: x.stage.gathered } }), g, true⟩

/-- Hands on and counts values.  When the quota is met and more is wanted, the stage is exhausted. -/
def limitInto (quota : Nat) (c : Consumer α) : Consumer (α × Cell σ) :=
  fun (a, x) g r =>
    match r with
    | .error e =>
      let reply := c a g (.error e)
      ⟨(reply.state, x), reply.graph, reply.more⟩
    | .ok v =>
      let reply := c a g (.ok v)
      let stage := { x.stage with emitted := x.stage.emitted + 1 }
      if reply.more && quota ≤ stage.emitted then
        ⟨(reply.state, { x with stage := { stage with exhausted := true } }), reply.graph, false⟩
      else ⟨(reply.state, { x with stage }), reply.graph, reply.more⟩

end Consumers

/-- Runs the cells, given from the last step to the first, on what is left of the source. -/
def run {σ : Type} (m : Machine σ) : List (Cell σ) → List Value →
    {α : Type} → Consumer α → α → Graph → Run σ α
  | [], source, _, c, a, g =>
    let (reply, rest) := offer c source a g
    ⟨[], rest, reply⟩
  | x :: before, source, _, c, a, g =>
    -- what the step still holds goes first
    let (reply, buffer) := offer c x.stage.buffer a g
    let x := { x with stage := { x.stage with buffer } }
    if !reply.more || x.stage.exhausted then ⟨x :: before, source, reply⟩
    else
      match m.kind x.step with
      | .expanding =>
        let o := run m before source (expandInto m c) (reply.state, x) reply.graph
        let (a, x) := o.reply.state
        let x := { x with stage := { x.stage with exhausted := o.reply.more } }
        ⟨x :: o.cells, o.source, ⟨a, o.reply.graph, o.reply.more⟩⟩
      | .limiting quota =>
        if quota ≤ x.stage.emitted then
          ⟨{ x with stage := { x.stage with exhausted := true } } :: before, source, reply⟩
        else
          let o := run m before source (limitInto quota c) (reply.state, x) reply.graph
          let (a, x) := o.reply.state
          -- the run ended here, be it for want of inputs or by the quota
          let ended := o.reply.more || x.stage.exhausted
          let x := { x with stage := { x.stage with exhausted := ended } }
          ⟨x :: o.cells, o.source, ⟨a, o.reply.graph, ended⟩⟩
      | .gathering =>
        let o := run m before source (gatherInto c) (reply.state, x) reply.graph
        let (a, x) := o.reply.state
        if !o.reply.more then ⟨x :: o.cells, o.source, ⟨a, o.reply.graph, false⟩⟩
        else
          let released := m.release x.step x.stage.gathered.reverse o.reply.graph
          let stage := { x.stage with gathered := [], exhausted := true }
          match released.result with
          | .error e =>
            ⟨⟨released.state, stage⟩ :: o.cells, o.source, c a released.graph (.error e)⟩
          | .ok l =>
            let (reply, buffer) := offer c l a released.graph
            ⟨⟨released.state, { stage with buffer }⟩ :: o.cells, o.source, reply⟩

/-! ## Pulling results out of a pipeline -/

/-- The suspended state of a run, apart from the steps: what is left of the source, and a stage for
each step. -/
structure Flow where
  source : List Value
  stages : List Stage
deriving DecidableEq

structure Pull (σ : Type) where
  result : Option (Except Error Value)
  steps : List σ
  flow : Flow
  graph : Graph

section Pulling

variable {σ : Type}

/-- The cells of the steps from the last to the first.  A step without a stage gets a fresh one, and
stages without a step are dropped. -/
def cells (steps : List σ) (stages : List Stage) : List (Cell σ) :=
  ((steps.zip (stages ++ List.replicate (steps.length - stages.length) .fresh)).map
    fun (s, t) => ⟨s, t⟩).reverse

namespace Flow

def start (seeds : List Value) (length : Nat) : Flow :=
  ⟨seeds, List.replicate length .fresh⟩

/-- Takes the next result, or learns that there is none. -/
def pull (m : Machine σ) (steps : List σ) (flow : Flow) (g : Graph) : Pull σ :=
  let o := run m (cells steps flow.stages) flow.source
    (fun _ g r => ⟨some r, g, false⟩) (none : Option (Except Error Value)) g
  let after := o.cells.reverse
  ⟨o.reply.state, after.map (·.step), ⟨o.source, after.map (·.stage)⟩, o.reply.graph⟩

end Flow

/-- The first result of the steps for one input; nothing past it is evaluated. -/
def firstResult (m : Machine σ) (steps : List σ) (v : Value) (g : Graph) :
    Outcome (List σ) (Option Value) :=
  let p := (Flow.start [v] steps.length).pull m steps g
  ⟨match p.result with
    | none => .ok none
    | some (.ok w) => .ok (some w)
    | some (.error e) => .error e, p.steps, p.graph⟩

def allRemaining (m : Machine σ) (steps : List σ) (flow : Flow) (g : Graph) :
    Outcome (List σ) (List Value) :=
  let o := run m (cells steps flow.stages) flow.source
    (fun (found : List Value × Option Error) g r =>
      match r with
      | .ok w => ⟨(w :: found.1, none), g, true⟩
      | .error e => ⟨(found.1, some e), g, false⟩) ([], none) g
  ⟨match o.reply.state with
    | (found, none) => .ok found.reverse
    | (_, some e) => .error e, o.cells.reverse.map (·.step), o.reply.graph⟩

def allResults (m : Machine σ) (steps : List σ) (v : Value) (g : Graph) :
    Outcome (List σ) (List Value) :=
  allRemaining m steps (.start [v] steps.length) g

end Pulling

end GraphTraversal
