import GraphTraversal.Bytecode.Basic
import GraphTraversal.Text.Quoted

/-! # Text of bytecode

A string literal stands in quotes; every other argument stands as it is.
-/

namespace GraphTraversal

mutual

def Argument.text : Argument → String
  | .literal (.string s) => Text.quote s
  | .literal v => v.text
  | .token t => t.text
  | .traversal code => code.text
  | .binding name value => "binding[" ++ name ++ "=" ++ value.text ++ "]"
  | .strategy s => s.text
  | .lambda l => l.text

def Argument.texts : List Argument → List String
  | [] => []
  | a :: l => a.text :: Argument.texts l

def Instruction.text : Instruction → String
  | ⟨operator, arguments⟩ => operator ++ "(" ++ ", ".intercalate (Argument.texts arguments) ++ ")"

def Instruction.texts : List Instruction → List String
  | [] => []
  | i :: l => i.text :: Instruction.texts l

def Bytecode.text : Bytecode → String
  | ⟨source, steps⟩ =>
    "[[" ++ ", ".intercalate (Instruction.texts source) ++ "], [" ++
      ", ".intercalate (Instruction.texts steps) ++ "]]"

def Strategy.text : Strategy → String
  | ⟨name, _, _, _, [], _⟩ => name
  | ⟨name, _, _, _, p :: l, _⟩ =>
    name ++ "(" ++ ", ".intercalate (Argument.entryTexts (p :: l)) ++ ")"

def Argument.entryTexts : List (String × Argument) → List String
  | [] => []
  | (k, a) :: l => (k ++ "=" ++ a.text) :: Argument.entryTexts l

end

end GraphTraversal
