import GraphTraversal.Bytecode.Printer
import GraphTraversal.Strategy.Builtin

/-! # Traversals and how they are built

A traversal is a pipeline together with the bytecode that recorded it.  Every builder call appends a
step, or changes the last one, and records its instruction; strategies later change the pipeline and
never the bytecode.
-/

namespace GraphTraversal

/-- A label or a property key as it is given to a builder call: literally, or by a variable. -/
inductive Name where
  | literal (text : String)
  | bound (variableName : String) (value : Argument)

namespace Name

def resolve : Name → String
  | .literal text => text
  | .bound _ value =>
    match value.resolve? with
    | some v => v.text
    | none => value.text

def argument : Name → Argument
  | .literal text => .literal (.string text)
  | .bound variableName value => .binding variableName value

end Name

inductive OptionToken where
  | value (v : Value)
  | otherwise
deriving DecidableEq

def OptionToken.argument : OptionToken → Argument
  | .value v => .literal v
  | .otherwise => .token .otherwise

structure Traversal where
  pipeline : Pipeline := {}
  bytecode : Bytecode := {}

namespace Decision

/-- Registers a branch.  Of two branches under one value both are kept, and the first is the one that
is taken. -/
def addOption (d : Decision) (token : OptionToken) (branch : Pipeline) : Except Error Decision :=
  match d, token with
  | .lambda .., _ | .predicate .., _ => .error (.invalidOption .fixedBranches)
  | .selector _ _ (some _), .otherwise => .error (.invalidOption .secondFallback)
  | .selector pick options none, .otherwise => .ok (.selector pick options (some branch))
  | .selector pick options fallback, .value v =>
    .ok (.selector pick (options ++ [(v, branch)]) fallback)

end Decision

namespace Step

/-- Adds a sort key or a key traversal to a step that takes one. -/
def modulate (s : Step) (modulator : Comparator) : Except Error Step :=
  match s, modulator with
  | .groupCount ring, .by child => .ok (.groupCount (ring.push child))
  | .project names ring, .by child => .ok (.project names (ring.push child))
  | .order comparators, c => .ok (.order (comparators ++ [c]))
  | .groupCount _, .self _ | .project .., .self _ =>
    .error (.invalidOption (.noOrderModulator s.name))
  | s, _ => .error (.invalidOption (.noModulators s.name))

def setTimes (s : Step) (n : Nat) : Except Error Step :=
  match s with
  | .repeat child _ => .ok (.repeat child (some n))
  | s => .error (.invalidOption (.notAfterRepeat s.name))

def addOption (s : Step) (token : OptionToken) (branch : Pipeline) : Except Error Step :=
  match s with
  | .choose decision phase => (decision.addOption token branch).map (.choose · phase)
  | s => .error (.invalidOption (.notAfterChoose s.name))

end Step

namespace Traversal

instance : Inhabited Traversal := ⟨{}⟩

/-- The traversal without steps, from which children are built. -/
def start : Traversal := {}

/-- Traversals are equal when they were recorded alike. -/
instance : BEq Traversal := ⟨fun a b => a.bytecode == b.bytecode⟩

def argument (t : Traversal) : Argument := .traversal t.bytecode

def criterion (t : Traversal) : Criterion := ⟨t.pipeline, t.bytecode⟩

def push (t : Traversal) (s : Step) (operator : String) (arguments : List Argument) : Traversal where
  pipeline := { t.pipeline with steps := t.pipeline.steps ++ [s] }
  bytecode := t.bytecode.addStep operator arguments

def modifyLast (t : Traversal) (operator : String) (arguments : List Argument)
    (f : Step → Except Error Step) : Except Error Traversal :=
  match t.pipeline.steps.getLast? with
  | none => .error (.invalidOption (.noPrecedingStep operator))
  | some s => (f s).map fun s =>
    { pipeline := { t.pipeline with steps := t.pipeline.steps.dropLast ++ [s] }
      bytecode := t.bytecode.addStep operator arguments }

/-! ## Builder calls -/

def vertices (t : Traversal) (ids : List Value) : Traversal :=
  t.push (.vertices ids) "V" (ids.map .literal)

def adjacent (t : Traversal) (d : Direction) (labels : List Name) : Traversal :=
  let s : Step := .adjacent d (labels.map (·.resolve))
  t.push s s.name (labels.map (·.argument))

def incident (t : Traversal) (d : Direction) (labels : List Name) : Traversal :=
  let s : Step := .incident d (labels.map (·.resolve))
  t.push s s.name (labels.map (·.argument))

def endpoint (t : Traversal) (d : Direction) : Traversal :=
  let s : Step := .endpoint d
  t.push s s.name []

def hasLabel (t : Traversal) (labels : List Name) : Traversal :=
  t.push (.hasLabel (labels.map (·.resolve))) "hasLabel" (labels.map (·.argument))

def has (t : Traversal) (key : String) (value : Value) : Traversal :=
  t.push (.has key value) "has" [.literal (.string key), .literal value]

def values (t : Traversal) (keys : List Name) : Traversal :=
  t.push (.values (keys.map (·.resolve))) "values" (keys.map (·.argument))

def valueMap (t : Traversal) : Traversal := t.push .valueMap "valueMap" []

def label (t : Traversal) : Traversal := t.push .label "label" []

def id (t : Traversal) : Traversal := t.push .id "id" []

def identity (t : Traversal) : Traversal := t.push .identity "identity" []

def count (t : Traversal) : Traversal := t.push .count "count" []

def is (t : Traversal) (value : Value) : Traversal := t.push (.is value) "is" [.literal value]

def limit (t : Traversal) (quota : Nat) : Traversal :=
  t.push (.limit quota) "limit" [.literal (.ofSize quota)]

def unfold (t : Traversal) : Traversal := t.push .unfold "unfold" []

def select (t : Traversal) (c : Column) : Traversal :=
  t.push (.select c) "select" [.token (.column c)]

def filter (t child : Traversal) : Traversal :=
  t.push (.filter child.pipeline none) "filter" [child.argument]

def and (t : Traversal) (children : List Traversal) : Traversal :=
  t.push (.and (children.map (·.pipeline))) "and" (children.map (·.argument))

def repeating (t child : Traversal) : Traversal :=
  t.push (.repeat child.pipeline none) "repeat" [child.argument]

def times (t : Traversal) (n : Nat) : Except Error Traversal :=
  t.modifyLast "times" [.literal (.ofSize n)] (·.setTimes n)

def chooseLambda (t : Traversal) (test : Lambda) (yes no : Traversal) : Traversal :=
  t.push (.choose (.lambda test yes.pipeline no.pipeline) .unevaluated) "choose"
    [.lambda test, yes.argument, no.argument]

/-- A choice by whether a traversal yields anything. -/
def chooseIf (t test yes no : Traversal) : Traversal :=
  t.push (.choose (.predicate test.pipeline yes.pipeline no.pipeline) .unevaluated) "choose"
    [test.argument, yes.argument, no.argument]

/-- A choice by the one result of a traversal; options follow. -/
def choose (t pick : Traversal) : Traversal :=
  t.push (.choose (.selector pick.pipeline [] none) .unevaluated) "choose" [pick.argument]

def option (t : Traversal) (token : OptionToken) (branch : Traversal) : Except Error Traversal :=
  t.modifyLast "option" [token.argument, branch.argument] (·.addOption token branch.pipeline)

def groupCount (t : Traversal) : Traversal := t.push (.groupCount {}) "groupCount" []

def project (t : Traversal) (names : List Name) : Traversal :=
  t.push (.project (names.map (·.resolve)) {}) "project" (names.map (·.argument))

def order (t : Traversal) : Traversal := t.push (.order []) "order" []

def byTraversal (t child : Traversal) : Except Error Traversal :=
  t.modifyLast "by" [child.argument] (·.modulate (.by child.pipeline))

def byOrder (t : Traversal) (o : SortOrder) : Except Error Traversal :=
  t.modifyLast "by" [.token (.order o)] (·.modulate (.self o))

def addVertex (t : Traversal) (text : String) : Traversal :=
  t.push (.addVertex text) "addV" [.literal (.string text)]

def property (t : Traversal) (key : String) (value : Value) : Traversal :=
  t.push (.property key value) "property" [.literal (.string key), .literal value]

def drop (t : Traversal) : Traversal := t.push .drop "drop" []

end Traversal

end GraphTraversal
