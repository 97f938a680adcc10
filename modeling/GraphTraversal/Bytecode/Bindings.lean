import GraphTraversal.Bytecode.Basic

/-! # The bindings of bytecode

Every variable bound anywhere in the bytecode, also inside the value of another variable, in child
bytecode and in the configuration of a strategy.  A name keeps the place where it is first met and has
the value it is last given.
-/

namespace GraphTraversal

mutual

def Argument.bind : OrderedMap String Argument → Argument → OrderedMap String Argument
  | found, .binding name value => value.bind (found.insert name value)
  | found, .traversal code => code.bind found
  | found, .strategy s => s.bind found
  | found, .literal _ | found, .token _ | found, .lambda _ => found

def Argument.bindAll : OrderedMap String Argument → List Argument → OrderedMap String Argument
  | found, [] => found
  | found, a :: l => Argument.bindAll (a.bind found) l

def Instruction.bindAll : OrderedMap String Argument → List Instruction →
    OrderedMap String Argument
  | found, [] => found
  | found, ⟨_, arguments⟩ :: l => Instruction.bindAll (Argument.bindAll found arguments) l

def Bytecode.bind : OrderedMap String Argument → Bytecode → OrderedMap String Argument
  | found, ⟨source, steps⟩ => Instruction.bindAll (Instruction.bindAll found source) steps

def Strategy.bind : OrderedMap String Argument → Strategy → OrderedMap String Argument
  | found, ⟨_, _, _, _, configuration, _⟩ => Argument.bindEntries found configuration

def Argument.bindEntries : OrderedMap String Argument → List (String × Argument) →
    OrderedMap String Argument
  | found, [] => found
  | found, (_, a) :: l => Argument.bindEntries (a.bind found) l

end

def Bytecode.bindings (b : Bytecode) : OrderedMap String Argument := b.bind ∅

end GraphTraversal
