import GraphTraversal.Data.OrderedMap
import GraphTraversal.Error

/-! # Property graphs

Vertices and edges carry a label and properties and keep the order in which they came in.  Beside the
edges the graph keeps, for every vertex, the edges that leave it and those that enter it.
-/

namespace GraphTraversal

/-- A direction of edges as seen from a vertex, or an end of an edge. -/
inductive Direction where
  | outward
  | inward
  | both
deriving DecidableEq

def Direction.opposite : Direction → Direction
  | .outward => .inward
  | .inward => .outward
  | .both => .both

structure VertexRecord where
  label : String
  properties : OrderedMap String Value := ∅
deriving DecidableEq

/-- What a graph knows of an edge; it runs from its tail to its head. -/
structure EdgeRecord where
  label : String
  tail : VertexId
  head : VertexId
  properties : OrderedMap String Value := ∅
deriving DecidableEq

/-- A property graph.  Fresh ids are taken after `lastId`, a counter of 64 bits: `addVertex` and `addEdge`
are for graphs that are not full. -/
structure Graph where
  vertices : OrderedMap VertexId VertexRecord := ∅
  edges : OrderedMap EdgeId EdgeRecord := ∅
  leaving : OrderedMap VertexId (List EdgeId) := ∅
  entering : OrderedMap VertexId (List EdgeId) := ∅
  lastId : Nat := 0
deriving DecidableEq

namespace Graph

def empty : Graph := {}

instance : Inhabited Graph := ⟨empty⟩

/-- Whether there are no fresh ids left. -/
def isFull (g : Graph) : Bool := Nat.pow 2 64 ≤ g.lastId + 1

/-! ## Adding -/

def addVertex (g : Graph) (label : String) : VertexId × Graph :=
  let id : VertexId := ⟨g.lastId + 1⟩
  (id, { g with vertices := g.vertices.insert id { label }, lastId := g.lastId + 1 })

def addVertexWithId (g : Graph) (id : VertexId) (label : String) : Except Error Graph :=
  if g.vertices.contains id then .error (.dataset (.duplicateVertex id))
  else .ok { g with
    vertices := g.vertices.insert id { label }
    lastId := max g.lastId id.val }

def attach (lists : OrderedMap VertexId (List EdgeId)) (v : VertexId) (e : EdgeId) :
    OrderedMap VertexId (List EdgeId) :=
  lists.insert v ((lists.get? v).getD [] ++ [e])

/-- Adds an edge under a given id, which must be free, between vertices of the graph. -/
def addEdgeWithId (g : Graph) (id : EdgeId) (tail : VertexId) (label : String) (head : VertexId) :
    Except Error Graph :=
  if ¬ g.vertices.contains tail then .error (.dataset (.missingEndpoint id tail))
  else if ¬ g.vertices.contains head then .error (.dataset (.missingEndpoint id head))
  else if g.edges.contains id then .error (.dataset (.duplicateEdge id))
  else .ok { g with
    edges := g.edges.insert id { label, tail, head }
    leaving := attach g.leaving tail id
    entering := attach g.entering head id
    lastId := max g.lastId id.val }

/-- Adds an edge under the next fresh id.  The id is used up even if the edge is refused. -/
def addEdge (g : Graph) (tail : VertexId) (label : String) (head : VertexId) :
    Except Error EdgeId × Graph :=
  let id : EdgeId := ⟨g.lastId + 1⟩
  let g := { g with lastId := g.lastId + 1 }
  match g.addEdgeWithId id tail label head with
  | .ok g => (.ok id, g)
  | .error e => (.error e, g)

/-- Sets a property of an element; `none` if the value is no element of the graph. -/
def setProperty? (g : Graph) (element : Value) (key : String) (value : Value) : Option Graph :=
  match element with
  | .vertex id =>
    if g.vertices.contains id then
      some { g with vertices := g.vertices.modify id fun r =>
        { r with properties := r.properties.insert key value } }
    else none
  | .edge id =>
    if g.edges.contains id then
      some { g with edges := g.edges.modify id fun r =>
        { r with properties := r.properties.insert key value } }
    else none
  | _ => none

/-! ## Reading -/

def vertexIds (g : Graph) : List VertexId := g.vertices.keys

def edgeIds (g : Graph) : List EdgeId := g.edges.keys

def label? (g : Graph) : Value → Option String
  | .vertex id => (g.vertices.get? id).map (·.label)
  | .edge id => (g.edges.get? id).map (·.label)
  | _ => none

def properties (g : Graph) : Value → OrderedMap String Value
  | .vertex id => ((g.vertices.get? id).map (·.properties)).getD ∅
  | .edge id => ((g.edges.get? id).map (·.properties)).getD ∅
  | _ => ∅

def property? (g : Graph) (element : Value) (key : String) : Option Value :=
  (g.properties element).get? key

/-- All edges at a vertex in a direction; under `both` a loop stands in either part. -/
def edgesAt (g : Graph) (v : VertexId) (d : Direction) : List EdgeId :=
  let out := (g.leaving.get? v).getD []
  let into := (g.entering.get? v).getD []
  match d with
  | .outward => out
  | .inward => into
  | .both => out ++ into

/-- The edges at a vertex whose label is listed; an empty list of labels admits every edge. -/
def incident (g : Graph) (v : VertexId) (d : Direction) (labels : List String) : List EdgeId :=
  (g.edgesAt v d).filter fun e =>
    labels.isEmpty || ((g.edges.get? e).map fun r => labels.contains r.label).getD false

def adjacent (g : Graph) (v : VertexId) (d : Direction) (labels : List String) : List VertexId :=
  (g.incident v d labels).filterMap fun e =>
    (g.edges.get? e).map fun r => if r.tail = v ∧ d ≠ .inward then r.head else r.tail

/-- The ends of an edge: outward its tail, inward its head. -/
def endpoints (g : Graph) (e : EdgeId) (d : Direction) : List VertexId :=
  match g.edges.get? e with
  | none => []
  | some r =>
    match d with
    | .outward => [r.tail]
    | .inward => [r.head]
    | .both => [r.tail, r.head]

/-! ## Removing -/

def detach (lists : OrderedMap VertexId (List EdgeId)) (v : VertexId) (e : EdgeId) :
    OrderedMap VertexId (List EdgeId) :=
  lists.modify v fun l => l.filter (· ≠ e)

def removeEdge (g : Graph) (e : EdgeId) : Graph :=
  match g.edges.get? e with
  | none => g
  | some r =>
    { g with
      edges := g.edges.erase e
      leaving := detach g.leaving r.tail e
      entering := detach g.entering r.head e }

/-- Removes a vertex together with the edges at it. -/
def removeVertex (g : Graph) (v : VertexId) : Graph :=
  let g := (g.edgesAt v .both).foldl removeEdge g
  { g with
    vertices := g.vertices.erase v
    leaving := g.leaving.erase v
    entering := g.entering.erase v }

/-- Removes an element; any other value is ignored. -/
def remove (g : Graph) : Value → Graph
  | .vertex id => g.removeVertex id
  | .edge id => g.removeEdge id
  | _ => g

end Graph

end GraphTraversal
