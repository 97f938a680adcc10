import GraphTraversal.Graph.Document

/-! # A small example graph

Six vertices, four people and two pieces of software, and six edges between them.
-/

namespace GraphTraversal.Graph

def modernDocument : Document where
  vertices := [
    { id := 1, label := "person", properties := [("name", .string "marko"), ("age", .integer 29)] },
    { id := 2, label := "person", properties := [("name", .string "vadas"), ("age", .integer 27)] },
    { id := 3, label := "software", properties := [("name", .string "lop"), ("lang", .string "java")] },
    { id := 4, label := "person", properties := [("name", .string "josh"), ("age", .integer 32)] },
    { id := 5, label := "software",
      properties := [("name", .string "ripple"), ("lang", .string "java")] },
    { id := 6, label := "person", properties := [("name", .string "peter"), ("age", .integer 35)] }]
  edges := [
    weighted 7 1 "knows" 2 5, weighted 8 1 "knows" 4 10, weighted 9 1 "created" 3 4,
    weighted 10 4 "created" 5 10, weighted 11 4 "created" 3 4, weighted 12 6 "created" 3 2]
where
  /-- An edge with a weight given in tenths. -/
  weighted (id tail : Nat) (label : String) (head tenths : Nat) : EdgeEntry :=
    { id, tail, label, head,
      properties := [("weight", .float (.ofParts false (Binary64.nearestMagnitude tenths 10)))] }

def modern : Except Error Graph := ofDocument modernDocument

end GraphTraversal.Graph
