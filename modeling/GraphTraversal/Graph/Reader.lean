import GraphTraversal.Graph.Document
import GraphTraversal.Json.Meaning

/-! # Reading graph documents

A document is written in JSON.  A record may be an object, whose unknown fields are skipped and whose
known fields stand at most once, or the array of its fields in their fixed order, of which the last ones
may be missing if they have a default.  Parts that are read nest at most 127 deep.
-/

namespace GraphTraversal

open Json

def maximalNesting : Nat := 127

namespace DocumentValue

mutual

/-- What a part of a document gives as a property; `depth` levels of nesting are left. -/
def ofNode? (depth : Nat) : Node → Option DocumentValue
  | .null => some .null
  | .boolean b => some (.boolean b)
  | .number n => n.value?.map fun
    | .integer n => .integer n
    | .float x => .float x
  | .string l => (string? l).map .string
  | .array items =>
    match depth with
    | 0 => none
    | depth + 1 => (ofNodes? depth items).map .array
  | .object fields =>
    match depth with
    | 0 => none
    | depth + 1 => if fieldsReadable depth fields then some .object else none

def ofNodes? (depth : Nat) : List Node → Option (List DocumentValue)
  | [] => some []
  | n :: l => do
    let d ← ofNode? depth n
    let rest ← ofNodes? depth l
    some (d :: rest)

def fieldsReadable (depth : Nat) : List (List Piece × Node) → Bool
  | [] => true
  | (key, n) :: l =>
    (string? key).isSome && (ofNode? depth n).isSome && fieldsReadable depth l

end

end DocumentValue

namespace Json.Node

def string? : Node → Option String
  | .string l => Json.string? l
  | _ => none

/-- An id: an unsigned word without fraction or exponent. -/
def id? : Node → Option Nat
  | .number n =>
    match n.value? with
    | some (.integer n) => if 0 ≤ n then some n.toNat else none
    | _ => none
  | _ => none

/-- The fields of a record by their places: those of an object are looked up by name, those of an array
stand in order. -/
def record? (names : List String) : Node → Option (List (Option Node))
  | .array items =>
    if items.length ≤ names.length then
      some (items.map some ++ List.replicate (names.length - items.length) none)
    else none
  | .object fields => do
    let keys ← fields.mapM fun field => Json.string? field.1
    let known := keys.zip (fields.map (·.2))
    if names.any fun name => 1 < keys.count name then none
    else some (names.map fun name => (known.find? fun field => field.1 = name).map (·.2))
  | _ => none

def items? : Node → Option (List Node)
  | .array items => some items
  | _ => none

/-- A missing part has the default; one that is there must be readable. -/
def orDefault {α : Type} (part : Option Node) (default : α) (read : Node → Option α) : Option α :=
  match part with
  | none => some default
  | some n => read n

/-- The properties of an element, each an array of a key and a value. -/
def properties? (depth : Nat) (n : Node) : Option (List (String × DocumentValue)) := do
  (← n.items?).mapM fun pair => do
    match ← pair.items? with
    | [key, value] => some (← key.string?, ← DocumentValue.ofNode? depth value)
    | _ => none

/-- How deep a property value stands in a document: inside the document, a list of elements, an
element, its properties and a pair. -/
def propertyDepth : Nat := maximalNesting - 5

def vertexEntry? (n : Node) : Option VertexEntry := do
  match ← n.record? ["id", "label", "properties"] with
  | [id, label, properties] =>
    some {
      id := ← (← id).id?
      label := ← (← label).string?
      properties := ← orDefault properties [] (properties? propertyDepth) }
  | _ => none

def edgeEntry? (n : Node) : Option EdgeEntry := do
  match ← n.record? ["id", "outV", "label", "inV", "properties"] with
  | [id, tail, label, head, properties] =>
    some {
      id := ← (← id).id?
      tail := ← (← tail).id?
      label := ← (← label).string?
      head := ← (← head).id?
      properties := ← orDefault properties [] (properties? propertyDepth) }
  | _ => none

def document? (n : Node) : Option Document := do
  match ← n.record? ["vertices", "edges"] with
  | [vertices, edges] =>
    some {
      vertices := ← orDefault vertices [] fun n => do (← n.items?).mapM vertexEntry?
      edges := ← orDefault edges [] fun n => do (← n.items?).mapM edgeEntry? }
  | _ => none

end Json.Node

namespace Graph

/-- The graph that a text describes.  The whole text is read before anything is built. -/
def ofJson (text : String) : Except Error Graph :=
  match (Node.read? text).bind (·.document?) with
  | none => .error (.dataset .malformed)
  | some d => ofDocument d

end Graph

end GraphTraversal
