import GraphTraversal.Toml.Reader
import GraphTraversal.Traversal.Source

/-! # Configuration of sources

A configuration switches built-in strategies on and off and may ask for a graph computer.  It is written
in TOML; a section may be a table, or an array of its fields in their fixed order.  Unknown fields are
skipped.
-/

namespace GraphTraversal

structure Toggles where
  identityRemoval : Bool := true
  incidentToAdjacent : Bool := true
  readOnly : Bool := false
  lambdaRestriction : Bool := false
deriving DecidableEq

structure ComputerConfig where
  workers : Option Nat := none
deriving DecidableEq

structure Config where
  toggles : Toggles := {}
  computer : Option ComputerConfig := none
deriving DecidableEq

/-! ## Reading -/

namespace Toml.Item

def boolean? : Item → Option Bool
  | .scalar (.boolean b) => some b
  | _ => none

/-- A number of workers: an integer that is not negative. -/
def natural? : Item → Option Nat
  | .scalar (.integer n) => if 0 ≤ n then some n.toNat else none
  | _ => none

/-- The fields of a section, by name or by place.  A time has none of them. -/
def section? (names : List String) : Item → Option (List (Option Item))
  | .table t | .inline t => some (names.map t.get?)
  | .array items => some ((List.range names.length).map fun i => items[i]?)
  | .tables l => some ((List.range names.length).map fun i => l.reverse[i]?.map .table)
  | .scalar .datetime => some (names.map fun _ => none)
  | .scalar _ => none

/-- A missing field has the default; one that is there must be readable. -/
def orDefault {α : Type} (field : Option Item) (default : α) (read : Item → Option α) : Option α :=
  match field with
  | none => some default
  | some item => read item

def toggles? (item : Item) : Option Toggles := do
  let names := ["identity_removal", "incident_to_adjacent", "read_only", "lambda_restriction"]
  match ← item.section? names with
  | [a, b, c, d] =>
    some {
      identityRemoval := ← orDefault a true boolean?
      incidentToAdjacent := ← orDefault b true boolean?
      readOnly := ← orDefault c false boolean?
      lambdaRestriction := ← orDefault d false boolean? }
  | _ => none

def computer? (item : Item) : Option ComputerConfig := do
  match ← item.section? ["workers"] with
  | [a] => some { workers := ← orDefault a none fun item => item.natural?.map some }
  | _ => none

end Toml.Item

inductive ConfigFault where
  | unreadable (path : String)
  | malformed (path : String)
deriving DecidableEq

def ConfigFault.message : ConfigFault → String
  | .unreadable path => "reading traversal config " ++ path
  | .malformed path => "parsing traversal config " ++ path

namespace Config

def ofToml? (text : String) : Option Config := do
  let t ← Toml.Table.read? text
  some {
    toggles := ← Toml.Item.orDefault (t.get? "strategies") {} (·.toggles?)
    computer := ← Toml.Item.orDefault (t.get? "computer") none fun item =>
      item.computer?.map some }

/-- The configuration in a file, given the contents of the file if it could be read. -/
def ofFile (path : String) (contents : Option String) : Except ConfigFault Config :=
  match contents with
  | none => .error (.unreadable path)
  | some text =>
    match ofToml? text with
    | none => .error (.malformed path)
    | some c => .ok c

/-! ## Meaning -/

/-- The strategies that a configuration asks for, in the order in which they are registered. -/
def strategies (c : Config) : List Strategy :=
  (c.computer.map fun k => Strategy.vertexProgram k.workers).toList ++
    (if c.toggles.identityRemoval then [.identityRemoval] else []) ++
    (if c.toggles.incidentToAdjacent then [.incidentToAdjacent] else []) ++
    (if c.toggles.readOnly then [.readOnly] else []) ++
    (if c.toggles.lambdaRestriction then [.lambdaRestriction] else [])

def strategySet (c : Config) : Except Error StrategySet :=
  c.strategies.foldlM StrategySet.add {}

def source (c : Config) : Except Error Source := c.strategySet.map .ofStrategies

end Config

end GraphTraversal
