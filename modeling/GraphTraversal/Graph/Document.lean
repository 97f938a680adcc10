import GraphTraversal.Graph.Basic

/-! # Graph documents

A document lists vertices and edges with ids of its own.  Loading adds the vertices and then the edges,
in order, and fails at the first element that the graph refuses or that has a property without a value
in the graph.
-/

namespace GraphTraversal

/-- What a document may give as a property.  Objects have no value. -/
inductive DocumentValue where
  | null
  | boolean (b : Bool)
  | integer (n : Int)
  | float (x : Binary64)
  | string (s : String)
  | array (items : List DocumentValue)
  | object
deriving Inhabited

structure VertexEntry where
  id : Nat
  label : String
  properties : List (String × DocumentValue) := []

structure EdgeEntry where
  id : Nat
  tail : Nat
  label : String
  head : Nat
  properties : List (String × DocumentValue) := []

structure Document where
  vertices : List VertexEntry := []
  edges : List EdgeEntry := []

namespace DocumentValue

mutual

/-- The value of a property.  An integer outside the signed words becomes a float. -/
def toValue : DocumentValue → Except Error Value
  | .null => .ok .null
  | .boolean b => .ok (.boolean b)
  | .integer n =>
    if Int64.minValue.toInt ≤ n ∧ n ≤ Int64.maxValue.toInt then .ok (.integer (Int64.ofInt n))
    else .ok (.float (Binary64.ofInt n))
  | .float x => .ok (.float x)
  | .string s => .ok (.string s)
  | .array items => (toValues items).map .list
  | .object => .error (.dataset .nestedObject)

def toValues : List DocumentValue → Except Error (List Value)
  | [] => .ok []
  | d :: l => do
    let v ← d.toValue
    let rest ← toValues l
    return v :: rest

end

end DocumentValue

namespace Graph

def setProperties (element : Value) :
    List (String × DocumentValue) → Graph → Except Error Graph
  | [], g => .ok g
  | (key, d) :: l, g => do
    let v ← d.toValue
    setProperties element l ((g.setProperty? element key v).getD g)

def loadVertex (g : Graph) (entry : VertexEntry) : Except Error Graph := do
  let g ← g.addVertexWithId ⟨entry.id⟩ entry.label
  setProperties (.vertex ⟨entry.id⟩) entry.properties g

def loadEdge (g : Graph) (entry : EdgeEntry) : Except Error Graph := do
  let g ← g.addEdgeWithId ⟨entry.id⟩ ⟨entry.tail⟩ entry.label ⟨entry.head⟩
  setProperties (.edge ⟨entry.id⟩) entry.properties g

def ofDocument (d : Document) : Except Error Graph := do
  let g ← d.vertices.foldlM loadVertex empty
  d.edges.foldlM loadEdge g

end Graph

end GraphTraversal
