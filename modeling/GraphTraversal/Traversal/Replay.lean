import GraphTraversal.Traversal.Source

/-! # Replaying bytecode

Replay makes the builder calls that a bytecode records.  Variables given as labels or keys stay in the
new record; a variable anywhere else is replaced by the literal it stands for.  Lambdas and unknown
operators cannot be replayed.
-/

namespace GraphTraversal

/-- An argument, with the traversal that it replays to if it is child bytecode. -/
structure Operand where
  argument : Argument
  child : Except Error Traversal

structure Recall where
  operator : String
  operands : List Operand

namespace Recall

def fail {α : Type} (r : Recall) (fault : ReplayFault) : Except Error α :=
  .error (.replay r.operator fault)

/-- The operand at a place; a lambda is refused wherever it is looked at. -/
def operand (r : Recall) (index : Nat) : Except Error Operand :=
  match r.operands[index]? with
  | none => r.fail (.missingArgument index)
  | some o =>
    match o.argument with
    | .lambda l => r.fail (.lambdaArgument l.name)
    | _ => .ok o

def literal (r : Recall) (index : Nat) : Except Error Value := do
  match (← r.operand index).argument.resolve? with
  | some v => return v
  | none => r.fail (.notLiteral index)

def literals (r : Recall) : Except Error (List Value) :=
  (List.range r.operands.length).mapM r.literal

def string (r : Recall) (index : Nat) : Except Error String := do
  match ← r.literal index with
  | .string s => return s
  | v => r.fail (.notString v.typeName)

def strings (r : Recall) : Except Error (List String) :=
  (List.range r.operands.length).mapM r.string

def natural (r : Recall) (index : Nat) : Except Error Nat := do
  match ← r.literal index with
  | .integer n => if 0 ≤ n.toInt then return n.toInt.toNat else r.fail .notCount
  | _ => r.fail .notCount

def token (r : Recall) (index : Nat) : Except Error Token := do
  match (← r.operand index).argument with
  | .token t => return t
  | _ => r.fail .notToken

def child (r : Recall) (index : Nat) : Except Error Traversal := do
  let o ← r.operand index
  match o.argument with
  | .traversal _ => o.child
  | _ => r.fail (.notTraversal index)

def children (r : Recall) : Except Error (List Traversal) :=
  (List.range r.operands.length).mapM r.child

def names (r : Recall) : Except Error (List Name) :=
  r.operands.mapM fun o =>
    match o.argument with
    | .binding name value => .ok (.bound name value)
    | .literal (.string s) => .ok (.literal s)
    | _ => r.fail .notName

def strategies (r : Recall) : Except Error (List Strategy) :=
  r.operands.mapM fun o =>
    match o.argument with
    | .strategy s => .ok s
    | _ => r.fail .notStrategy

def optionToken (r : Recall) : Except Error OptionToken := do
  match (← r.operand 0).argument with
  | .token .otherwise => return .otherwise
  | a =>
    match a.resolve? with
    | some v => return .value v
    | none => r.fail .notOptionToken

def step (r : Recall) (t : Traversal) : Except Error Traversal := do
  match r.operator with
  | "V" => return t.vertices (← r.literals)
  | "out" => return t.adjacent .outward (← r.names)
  | "in" => return t.adjacent .inward (← r.names)
  | "both" => return t.adjacent .both (← r.names)
  | "outE" => return t.incident .outward (← r.names)
  | "inE" => return t.incident .inward (← r.names)
  | "outV" => return t.endpoint .outward
  | "inV" => return t.endpoint .inward
  | "hasLabel" => return t.hasLabel (← r.names)
  | "has" =>
    let key ← r.string 0
    return t.has key (← r.literal 1)
  | "values" => return t.values (← r.names)
  | "valueMap" => return t.valueMap
  | "label" => return t.label
  | "id" => return t.id
  | "identity" => return t.identity
  | "count" => return t.count
  | "is" => return t.is (← r.literal 0)
  | "limit" => return t.limit (← r.natural 0)
  | "unfold" => return t.unfold
  | "select" =>
    match ← r.token 0 with
    | .column c => return t.select c
    | _ => r.fail .notColumn
  | "filter" => return t.filter (← r.child 0)
  | "and" => return t.and (← r.children)
  | "repeat" => return t.repeating (← r.child 0)
  | "times" => t.times (← r.natural 0)
  | "choose" =>
    match r.operands.length with
    | 1 => return t.choose (← r.child 0)
    | 3 =>
      let test ← r.child 0
      let yes ← r.child 1
      return t.chooseIf test yes (← r.child 2)
    | _ => r.fail .chooseArity
  | "option" =>
    let token ← r.optionToken
    t.option token (← r.child 1)
  | "groupCount" => return t.groupCount
  | "project" => return t.project (← r.names)
  | "order" => return t.order
  | "by" =>
    match (← r.operand 0).argument with
    | .token (.order o) => t.byOrder o
    | _ => t.byTraversal (← r.child 0)
  | "addV" => return t.addVertex (← r.string 0)
  | "property" =>
    let key ← r.string 0
    return t.property key (← r.literal 1)
  | "drop" => return t.drop
  | _ => r.fail .unknownStep

def source (r : Recall) (src : Source) : Except Error Source := do
  match r.operator with
  | "withStrategies" => (← r.strategies).foldlM Source.withStrategy src
  | "withoutStrategies" => return src.withoutStrategies (← r.strings)
  | _ => r.fail .unknownSource

end Recall

mutual

def Argument.operands : List Argument → List Operand
  | [] => []
  | .traversal code :: l => ⟨.traversal code, code.replayChild⟩ :: Argument.operands l
  | .literal v :: l => ⟨.literal v, .ok .start⟩ :: Argument.operands l
  | .token t :: l => ⟨.token t, .ok .start⟩ :: Argument.operands l
  | .binding name value :: l => ⟨.binding name value, .ok .start⟩ :: Argument.operands l
  | .strategy s :: l => ⟨.strategy s, .ok .start⟩ :: Argument.operands l
  | .lambda f :: l => ⟨.lambda f, .ok .start⟩ :: Argument.operands l

def Instruction.replaySteps (t : Traversal) : List Instruction → Except Error Traversal
  | [] => .ok t
  | ⟨operator, arguments⟩ :: l => do
    let t ← Recall.step ⟨operator, Argument.operands arguments⟩ t
    Instruction.replaySteps t l

def Bytecode.replayChild : Bytecode → Except Error Traversal
  | ⟨[], steps⟩ => Instruction.replaySteps .start steps
  | ⟨i :: _, _⟩ => .error (.replay i.operator .childSource)

end

namespace Source

def replay (src : Source) (l : List Instruction) : Except Error Source :=
  l.foldlM (fun src i => Recall.source ⟨i.operator, Argument.operands i.arguments⟩ src) src

/-- Rebuilds the query that a bytecode records, starting from this source. -/
def replayQuery (src : Source) (code : Bytecode) : Except Error Query := do
  let src ← src.replay code.source
  let t ← Instruction.replaySteps src.start code.steps
  return src.query t

end Source

end GraphTraversal
