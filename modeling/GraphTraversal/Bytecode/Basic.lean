import GraphTraversal.Step.Basic

/-! # Bytecode

The record of a traversal as plain data: one log of instructions that configure the source and one log
of instructions that describe the pipeline.  Bytecode nests, since an argument may hold the bytecode of
a child traversal, and a strategy among the arguments is configured by arguments again.

Equality looks at what an argument denotes: a lambda is its name, a strategy its name and its
configuration.
-/

namespace GraphTraversal

/-- The categories of strategies, in the order in which they run. -/
inductive Category where
  | decoration
  | optimization
  | verification
deriving DecidableEq

namespace Category

def rank : Category → Nat
  | .decoration => 0
  | .optimization => 1
  | .verification => 2

def text : Category → String
  | .decoration => "decoration"
  | .optimization => "optimization"
  | .verification => "verification"

end Category

inductive Behaviour where
  | removeIdentities
  | fuseEdgeWalks
  /-- Hides vertices and edges for which a criterion yields nothing. -/
  | hideOutside (vertices edges : Option Pipeline)
  | markComputer (workers : Option Nat)
  | forbidMutation
  | forbidLambdas
  /-- Reports every level it is shown, and may forbid steps of one name. -/
  | audit (forbidden : Option String)

mutual

inductive Argument where
  | literal (value : Value)
  | token (token : Token)
  | traversal (code : Bytecode)
  /-- A named variable with the argument it stands for. -/
  | binding (name : String) (value : Argument)
  | strategy (strategy : Strategy)
  | lambda (lambda : Lambda)

structure Instruction where
  operator : String
  arguments : List Argument := []

/-- The two logs of a traversal. -/
structure Bytecode where
  source : List Instruction := []
  steps : List Instruction := []

/-- A pass over pipelines.  `prior` names strategies that must run before it and `post` those that
must run after it; the configuration is sorted by key. -/
structure Strategy where
  name : String
  category : Category
  prior : List String := []
  post : List String := []
  configuration : List (String × Argument) := []
  behaviour : Behaviour

end

instance : Inhabited Argument := ⟨.literal .null⟩

instance : Inhabited Bytecode := ⟨{}⟩

/-! ## Equality -/

mutual

def Argument.same : Argument → Argument → Bool
  | .literal a, .literal b => a == b
  | .token a, .token b => a == b
  | .traversal a, .traversal b => a.same b
  | .binding m a, .binding n b => m == n && a.same b
  | .strategy a, .strategy b => a.same b
  | .lambda a, .lambda b => a == b
  | _, _ => false

def Argument.sameAll : List Argument → List Argument → Bool
  | [], [] => true
  | a :: as, b :: bs => a.same b && Argument.sameAll as bs
  | _, _ => false

def Instruction.same : Instruction → Instruction → Bool
  | ⟨o, as⟩, ⟨p, bs⟩ => o == p && Argument.sameAll as bs

def Instruction.sameAll : List Instruction → List Instruction → Bool
  | [], [] => true
  | a :: as, b :: bs => a.same b && Instruction.sameAll as bs
  | _, _ => false

def Bytecode.same : Bytecode → Bytecode → Bool
  | ⟨s, t⟩, ⟨u, v⟩ => Instruction.sameAll s u && Instruction.sameAll t v

def Strategy.same : Strategy → Strategy → Bool
  | ⟨m, _, _, _, c, _⟩, ⟨n, _, _, _, d, _⟩ => m == n && Argument.sameConfiguration c d

def Argument.sameConfiguration : List (String × Argument) → List (String × Argument) → Bool
  | [], [] => true
  | (k, a) :: as, (l, b) :: bs => k == l && a.same b && Argument.sameConfiguration as bs
  | _, _ => false

end

instance : BEq Argument := ⟨Argument.same⟩
instance : BEq Instruction := ⟨Instruction.same⟩
instance : BEq Bytecode := ⟨Bytecode.same⟩
instance : BEq Strategy := ⟨Strategy.same⟩

/-! ## Reading and appending -/

namespace Argument

def literal? : Argument → Option Value
  | .literal v => some v
  | _ => none

def traversal? : Argument → Option Bytecode
  | .traversal code => some code
  | _ => none

/-- The literal that an argument stands for, looking through bindings. -/
def resolve? : Argument → Option Value
  | .literal v => some v
  | .binding _ value => value.resolve?
  | _ => none

end Argument

namespace Bytecode

/-- All instructions, those of the source first. -/
def instructions (b : Bytecode) : List Instruction := b.source ++ b.steps

def size (b : Bytecode) : Nat := b.source.length + b.steps.length

def isEmpty (b : Bytecode) : Bool := b.size == 0

def addSource (b : Bytecode) (operator : String) (arguments : List Argument) : Bytecode :=
  { b with source := b.source ++ [{ operator, arguments }] }

def addStep (b : Bytecode) (operator : String) (arguments : List Argument) : Bytecode :=
  { b with steps := b.steps ++ [{ operator, arguments }] }

end Bytecode

end GraphTraversal
