import GraphTraversal.Value.Basic

/-! # What can go wrong

An error is its cause; `Error.message` gives the text and `Error.code` a short code for its class.
Causes reported from outside the library carry their text.  An execution that breaks off the program is
an error here as well, with what broke it off as its cause.
-/

namespace GraphTraversal

inductive OptionFault where
  | noPrecedingStep (operator : String)
  | notAfterRepeat (step : String)
  | notAfterChoose (step : String)
  | noModulators (step : String)
  | noOrderModulator (step : String)
  | fixedBranches
  | secondFallback
  | other (text : String)
deriving DecidableEq

inductive ReplayFault where
  | unknownStep
  | unknownSource
  | childSource
  | missingArgument (index : Nat)
  | lambdaArgument (name : String)
  | notLiteral (index : Nat)
  | notTraversal (index : Nat)
  | notString (found : String)
  | notCount
  | notToken
  | notColumn
  | notName
  | notOptionToken
  | notStrategy
  | chooseArity
  | other (text : String)
deriving DecidableEq

/-- Why a program breaks off instead of returning: the comparison of a sort was found in contradiction on
some of the values, or a counter was at its largest number. -/
inductive Panic where
  | disorder (values : List Value)
  | overflow (counter : Nat)
deriving DecidableEq

inductive ExecutionFault where
  | expectsVertex (step found : String)
  | expects (wanted found : String)
  | idTooLarge (id : Nat)
  | repeatWithoutTimes
  | unbound
  | panic (cause : Panic)
  | other (text : String)
deriving DecidableEq

inductive DatasetFault where
  | duplicateVertex (id : VertexId)
  | duplicateEdge (id : EdgeId)
  | missingEndpoint (edge : EdgeId) (vertex : VertexId)
  | nestedObject
  | malformed
  | other (text : String)
deriving DecidableEq

inductive Violation where
  | mutates (step : String)
  | usesLambda (step : String)
  | forbidden (step : String)
  | other (text : String)
deriving DecidableEq

inductive Error where
  | strategyCycle (names : List String)
  | invalidOption (fault : OptionFault)
  | config (text : String)
  | verification (strategy : String) (violation : Violation)
  | selection (count : Nat)
  | replay (operator : String) (fault : ReplayFault)
  | execution (fault : ExecutionFault)
  | dataset (fault : DatasetFault)
deriving DecidableEq

def OptionFault.text : OptionFault → String
  | .noPrecedingStep operator => operator ++ "() needs a preceding step"
  | .notAfterRepeat step => "times() must follow repeat(), not " ++ step ++ "()"
  | .notAfterChoose step => "option() must follow choose(), not " ++ step ++ "()"
  | .noModulators step => step ++ "() does not accept by() modulators"
  | .noOrderModulator step => step ++ "() cannot be modulated by an order"
  | .fixedBranches => "choose() with a predicate has fixed true/false branches"
  | .secondFallback => "choose() already has a none option"
  | .other text => text

def ReplayFault.text : ReplayFault → String
  | .unknownStep => "unknown step"
  | .unknownSource => "unknown source instruction"
  | .childSource => "child traversals cannot carry source instructions"
  | .missingArgument index => s!"missing argument {index}"
  | .lambdaArgument name => "lambda[" ++ name ++ "] cannot be replayed"
  | .notLiteral index => s!"argument {index} is not a literal"
  | .notTraversal index => s!"argument {index} is not a traversal"
  | .notString found => "expected a string, found " ++ found
  | .notCount => "expected a non-negative integer"
  | .notToken => "expected a token"
  | .notColumn => "expected keys or values"
  | .notName => "expected a label or key"
  | .notOptionToken => "expected an option token"
  | .notStrategy => "expected a strategy"
  | .chooseArity => "expected one selector or a predicate and two branches"
  | .other text => text

def Panic.text : Panic → String
  | .disorder _ => "user-provided comparison function does not correctly implement a total order"
  | .overflow _ => "attempt to add with overflow"

def ExecutionFault.text : ExecutionFault → String
  | .expectsVertex step found => step ++ " step expects a vertex, found " ++ found
  | .expects wanted found => "expected " ++ wanted ++ ", found " ++ found
  | .idTooLarge id => s!"element id {id} does not fit in an integer"
  | .repeatWithoutTimes => "repeat() requires times()"
  | .unbound => "anonymous traversal is not bound to a graph"
  | .panic cause => cause.text
  | .other text => text

def DatasetFault.text : DatasetFault → String
  | .duplicateVertex id => s!"duplicate vertex id {id.val}"
  | .duplicateEdge id => s!"duplicate edge id {id.val}"
  | .missingEndpoint edge vertex => s!"edge {edge.val} references missing {vertex.text}"
  | .nestedObject => "nested objects are not supported as property values"
  | .malformed => "malformed document"
  | .other text => text

def Violation.text : Violation → String
  | .mutates step => step ++ "() mutates the graph"
  | .usesLambda step => step ++ "() uses a lambda"
  | .forbidden step => "no " ++ step
  | .other text => text

namespace Error

abbrev panic (cause : Panic) : Error := .execution (.panic cause)

def message : Error → String
  | .strategyCycle names => "strategy ordering cycle involving " ++ ", ".intercalate names
  | .invalidOption fault => "invalid option: " ++ fault.text
  | .config text => "invalid configuration: " ++ text
  | .verification strategy violation => strategy ++ " rejected traversal: " ++ violation.text
  | .selection count =>
    s!"choose selector produced {count} values for one input, expected exactly one"
  | .replay operator fault => "cannot translate `" ++ operator ++ "`: " ++ fault.text
  | .execution fault => "execution failed: " ++ fault.text
  | .dataset fault => "dataset error: " ++ fault.text

def code : Error → String
  | .strategyCycle _ | .invalidOption _ | .config _ => "G001"
  | .verification .. => "G002"
  | .selection _ => "G003"
  | .replay .. => "G004"
  | .execution _ => "G005"
  | .dataset _ => "G006"

end Error

end GraphTraversal
