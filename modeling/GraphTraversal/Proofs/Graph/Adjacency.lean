import GraphTraversal.Proofs.Graph.Representation

/-! # Incident edges and neighbours

In a consistent graph the edges at a vertex and the vertices across them can be read off the edge records
alone.  So a step to the neighbours in one direction is the step to the edges and on to their other ends,
a step in both directions makes the one and then the other, and a vertex has another for its neighbour as
often as it is reached from there against the direction.
-/

namespace GraphTraversal

/-- Whether a list of labels admits an edge; an empty list admits every edge. -/
def EdgeRecord.isAdmitted (r : EdgeRecord) (labels : List String) : Bool :=
  labels.isEmpty || labels.contains r.label

namespace Graph

/-- The admitted edges with an end at `v`, with their records, in the order of the edges. -/
def recordsEnding (edges : OrderedMap EdgeId EdgeRecord) (ends : EdgeRecord → VertexId)
    (labels : List String) (v : VertexId) : List (EdgeId × EdgeRecord) :=
  edges.entries.filter fun p => decide (ends p.2 = v) && p.2.isAdmitted labels

theorem filter_edgesEnding (edges : OrderedMap EdgeId EdgeRecord) (ends : EdgeRecord → VertexId)
    (labels : List String) (v : VertexId) :
    ((edgesEnding edges ends v).filter fun e =>
      labels.isEmpty || ((edges.get? e).map fun r => labels.contains r.label).getD false) =
      (recordsEnding edges ends labels v).map (·.1) := by
  rw [edgesEnding, recordsEnding, List.filter_map, List.filter_filter]
  congr 1
  apply List.filter_congr
  rintro ⟨e, r⟩ hmem
  have hr : edges.get? e = some r := OrderedMap.get?_eq_some_iff.2 hmem
  simp only [Function.comp_apply, hr, Option.map_some, Option.getD_some, EdgeRecord.isAdmitted,
    Bool.and_comm]

theorem incident_both (g : Graph) (v : VertexId) (labels : List String) :
    g.incident v .both labels = g.incident v .outward labels ++ g.incident v .inward labels :=
  List.filter_append ..

namespace Consistent

variable {g : Graph} (h : g.Consistent) (v w : VertexId) (labels : List String)

include h

/-! ## Incident edges -/

theorem incident_outward :
    g.incident v .outward labels = (recordsEnding g.edges (·.tail) labels v).map (·.1) := by
  rw [incident, h.edgesAt_outward, filter_edgesEnding]

theorem incident_inward :
    g.incident v .inward labels = (recordsEnding g.edges (·.head) labels v).map (·.1) := by
  rw [incident, h.edgesAt_inward, filter_edgesEnding]

/-! ## Neighbours -/

theorem adjacent_outward :
    g.adjacent v .outward labels = (recordsEnding g.edges (·.tail) labels v).map (·.2.head) := by
  rw [adjacent, h.incident_outward, List.filterMap_map, ← List.filterMap_eq_map]
  apply List.filterMap_congr
  rintro ⟨e, r⟩ hmem
  obtain ⟨hmem, hv⟩ := List.mem_filter.1 hmem
  have hr : g.edges.get? e = some r := OrderedMap.get?_eq_some_iff.2 hmem
  have htail : r.tail = v := of_decide_eq_true (Bool.and_eq_true_iff.1 hv).1
  simp [hr, htail]

theorem adjacent_inward :
    g.adjacent v .inward labels = (recordsEnding g.edges (·.head) labels v).map (·.2.tail) := by
  rw [adjacent, h.incident_inward, List.filterMap_map, ← List.filterMap_eq_map]
  apply List.filterMap_congr
  rintro ⟨e, r⟩ hmem
  have hr : g.edges.get? e = some r :=
    OrderedMap.get?_eq_some_iff.2 (List.mem_filter.1 hmem).1
  simp [hr]

/-- The far end is found by comparing the tail of an edge with the vertex.  So among the entering edges a
loop is taken for a leaving one, but its two ends are the same. -/
theorem adjacent_both :
    g.adjacent v .both labels = g.adjacent v .outward labels ++ g.adjacent v .inward labels := by
  have houtward : g.across? v .both = g.across? v .outward := by
    funext e
    simp [across?]
  have hinward : (g.incident v .inward labels).filterMap (g.across? v .both) =
      (g.incident v .inward labels).filterMap (g.across? v .inward) := by
    apply List.filterMap_congr
    intro e he
    obtain ⟨r, hr, hhead⟩ := (mem_edgesAt_inward h).1 (List.mem_filter.1 he).1
    by_cases htail : r.tail = v
    · simp [across?, hr, htail, hhead]
    · simp [across?, hr, htail]
  calc g.adjacent v .both labels
      = (g.incident v .outward labels ++ g.incident v .inward labels).filterMap
          (g.across? v .both) := by
        rw [← incident_both]
        rfl
    _ = (g.incident v .outward labels).filterMap (g.across? v .outward) ++
          (g.incident v .inward labels).filterMap (g.across? v .inward) := by
        rw [List.filterMap_append, hinward, houtward]
    _ = g.adjacent v .outward labels ++ g.adjacent v .inward labels := rfl

/-- Both sides count the admitted edges from `v` to `w`. -/
theorem count_adjacent :
    (g.adjacent v .outward labels).count w = (g.adjacent w .inward labels).count v := by
  rw [h.adjacent_outward, h.adjacent_inward, List.count, List.count, List.countP_map,
    List.countP_map, recordsEnding, recordsEnding, List.countP_filter, List.countP_filter]
  apply List.countP_congr
  rintro ⟨e, r⟩ -
  simp only [Function.comp_apply, Bool.and_eq_true, beq_iff_eq, decide_eq_true_eq]
  tauto

end Consistent

/-- Going to the neighbours and walking along the edges are the same.  In every graph that was built by
the operations, whatever the labels: the neighbours in one direction are the far ends of the incident
edges, in their order; those in both directions are those outward and then those inward; and `w` is found
from `v` outward as often as `v` from `w` inward, over loops and parallel edges too. -/
theorem adjacent_walks_edges {g : Graph} (h : g.Reachable) (v w : VertexId) (labels : List String) :
    g.adjacent v .outward labels =
        (g.incident v .outward labels).flatMap (g.endpoints · .inward) ∧
      g.adjacent v .inward labels =
        (g.incident v .inward labels).flatMap (g.endpoints · .outward) ∧
      g.adjacent v .both labels = g.adjacent v .outward labels ++ g.adjacent v .inward labels ∧
      (g.adjacent v .outward labels).count w = (g.adjacent w .inward labels).count v :=
  have hg := h.consistent
  ⟨hg.adjacent_eq v (by decide) labels, hg.adjacent_eq v (by decide) labels,
    hg.adjacent_both v labels, hg.count_adjacent v w labels⟩

/-- A loop stands in either part of the neighbours in both directions, and of two parallel edges each
counts. -/
theorem adjacent_loop_and_parallel :
    let calls : List Call := [.addVertex "person", .addVertex "person", .addEdge ⟨1⟩ "knows" ⟨2⟩,
      .addEdge ⟨1⟩ "knows" ⟨1⟩, .addEdge ⟨1⟩ "knows" ⟨2⟩, .addEdge ⟨1⟩ "likes" ⟨2⟩]
    let g := performAll calls .empty
    g.Reachable ∧ g.adjacent ⟨1⟩ .both ["knows"] = [⟨2⟩, ⟨1⟩, ⟨2⟩] ++ [⟨1⟩] ∧
      (g.adjacent ⟨1⟩ .outward ["knows"]).count ⟨2⟩ = 2 ∧
      (g.adjacent ⟨2⟩ .inward ["knows"]).count ⟨1⟩ = 2 := by
  intro calls g
  have hg : g.Reachable := Reachable.empty.performAll calls
  obtain ⟨-, -, hboth, hcount⟩ := adjacent_walks_edges hg ⟨1⟩ ⟨2⟩ ["knows"]
  exact ⟨hg, hboth.trans (by decide), by decide, hcount.symm.trans (by decide)⟩

end Graph

end GraphTraversal
