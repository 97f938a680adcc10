import GraphTraversal.Graph.Basic
import GraphTraversal.Proofs.Data.OrderedMap

/-! # Consistent graphs

In a graph that was built by its operations, edges join vertices of the graph, and the edges listed at a
vertex are exactly those that the edge records place there, in the order in which they came in.
-/

namespace GraphTraversal.Graph

/-- The edges with an end at `v`, in the order of the edges. -/
def edgesEnding (edges : OrderedMap EdgeId EdgeRecord) (ends : EdgeRecord → VertexId)
    (v : VertexId) : List EdgeId :=
  (edges.entries.filter fun p => ends p.2 = v).map (·.1)

/-- The lists hold for every vertex the edges with an end there. -/
def Lists (lists : OrderedMap VertexId (List EdgeId)) (edges : OrderedMap EdgeId EdgeRecord)
    (ends : EdgeRecord → VertexId) : Prop :=
  ∀ v, (lists.get? v).getD [] = edgesEnding edges ends v

/-- Edges join vertices of the graph and are listed at their ends. -/
structure Consistent (g : Graph) : Prop where
  tail : ∀ {e r}, g.edges.get? e = some r → g.vertices.contains r.tail
  head : ∀ {e r}, g.edges.get? e = some r → g.vertices.contains r.head
  leaving : Lists g.leaving g.edges (·.tail)
  entering : Lists g.entering g.edges (·.head)

/-- The graphs that the operations build from the empty graph. -/
inductive Reachable : Graph → Prop where
  | empty : Reachable empty
  | addVertex {g : Graph} (h : Reachable g) (label : String) : Reachable (g.addVertex label).2
  | addVertexWithId {g g' : Graph} (h : Reachable g) {id : VertexId} {label : String}
    (ok : g.addVertexWithId id label = .ok g') : Reachable g'
  | addEdge {g : Graph} (h : Reachable g) (tail : VertexId) (label : String) (head : VertexId) :
    Reachable (g.addEdge tail label head).2
  | addEdgeWithId {g g' : Graph} (h : Reachable g) {id : EdgeId} {tail head : VertexId}
    {label : String} (ok : g.addEdgeWithId id tail label head = .ok g') : Reachable g'
  | setProperty {g g' : Graph} (h : Reachable g) {element value : Value} {key : String}
    (ok : g.setProperty? element key value = some g') : Reachable g'
  | remove {g : Graph} (h : Reachable g) (element : Value) : Reachable (g.remove element)

/-! ## Edges at a vertex -/

section Lists

variable {lists : OrderedMap VertexId (List EdgeId)} {edges : OrderedMap EdgeId EdgeRecord}
  {ends : EdgeRecord → VertexId} {e : EdgeId} {r : EdgeRecord} {v : VertexId}

theorem mem_edgesEnding :
    e ∈ edgesEnding edges ends v ↔ ∃ r, edges.get? e = some r ∧ ends r = v := by
  simp only [edgesEnding, List.mem_map, List.mem_filter, decide_eq_true_eq,
    OrderedMap.get?_eq_some_iff]
  constructor
  · rintro ⟨⟨e, r⟩, ⟨hmem, hr⟩, rfl⟩
    exact ⟨r, hmem, hr⟩
  · rintro ⟨r, hmem, hr⟩
    exact ⟨(e, r), ⟨hmem, hr⟩, rfl⟩

theorem edgesEnding_eq_nil (h : ∀ {e r}, edges.get? e = some r → ends r ≠ v) :
    edgesEnding edges ends v = [] := by
  apply List.eq_nil_iff_forall_not_mem.2
  intro e he
  obtain ⟨r, hr, hv⟩ := mem_edgesEnding.1 he
  exact h hr hv

theorem edgesEnding_insert (he : edges.contains e = false) :
    edgesEnding (edges.insert e r) ends v =
      edgesEnding edges ends v ++ if ends r = v then [e] else [] := by
  simp only [edgesEnding, OrderedMap.entries_insert he, List.filter_append, List.map_append]
  split <;> simp_all

theorem edgesEnding_modify {f : EdgeRecord → EdgeRecord} (hf : ∀ r, ends (f r) = ends r) :
    edgesEnding (edges.modify e f) ends v = edgesEnding edges ends v := by
  simp only [edgesEnding, OrderedMap.modify, OrderedMap.mapValues, List.filter_map, List.map_map]
  have hends (p : EdgeId × EdgeRecord) :
      ends (if p.1 = e then f p.2 else p.2) = ends p.2 := by
    split
    · exact hf p.2
    · rfl
  simp only [Function.comp_def, hends]

theorem edgesEnding_erase :
    edgesEnding (edges.erase e) ends v = (edgesEnding edges ends v).filter (· ≠ e) := by
  simp only [edgesEnding, OrderedMap.erase, List.filter_map, List.filter_filter, Function.comp_def]
  simp only [Bool.and_comm]

namespace Lists

theorem attach (h : Lists lists edges ends) (he : edges.contains e = false) :
    Lists (Graph.attach lists (ends r) e) (edges.insert e r) ends := by
  intro v
  rw [Graph.attach, OrderedMap.get?_insert, edgesEnding_insert he]
  by_cases hv : v = ends r
  · subst hv
    simp [h (ends r)]
  · have hv' : ¬ends r = v := fun e => hv e.symm
    simp [hv, hv', h v]

theorem modify (h : Lists lists edges ends) {f : EdgeRecord → EdgeRecord}
    (hf : ∀ r, ends (f r) = ends r) : Lists lists (edges.modify e f) ends := by
  intro v
  rw [h v, edgesEnding_modify hf]

theorem detach (h : Lists lists edges ends) (hr : edges.get? e = some r) :
    Lists (Graph.detach lists (ends r) e) (edges.erase e) ends := by
  intro v
  rw [Graph.detach, OrderedMap.get?_modify, edgesEnding_erase, ← h v]
  by_cases hv : v = ends r
  · rw [if_pos hv]
    cases lists.get? v <;> rfl
  · have hnot : e ∉ edgesEnding edges ends v := by
      rw [mem_edgesEnding, hr]
      rintro ⟨_, ⟨⟩, rfl⟩
      exact hv rfl
    rw [if_neg hv, h v, List.filter_eq_self.2]
    rintro e' he'
    simpa using ne_of_mem_of_not_mem he' hnot

theorem erase (h : Lists lists edges ends) (hv : edgesEnding edges ends v = []) :
    Lists (lists.erase v) edges ends := by
  intro w
  rw [OrderedMap.get?_erase]
  by_cases hw : w = v
  · rw [if_pos hw, hw, hv]
    rfl
  · rw [if_neg hw]
    exact h w

end Lists

end Lists

/-! ## Operations -/

namespace Consistent

variable {g g' : Graph}

theorem empty : Graph.empty.Consistent where
  tail h := by cases h
  head h := by cases h
  leaving _ := rfl
  entering _ := rfl

theorem insertVertex (h : g.Consistent) (v : VertexId) (r : VertexRecord) (lastId : Nat) :
    Consistent { g with vertices := g.vertices.insert v r, lastId } where
  tail he := OrderedMap.contains_insert_iff.2 (.inr (h.tail he))
  head he := OrderedMap.contains_insert_iff.2 (.inr (h.head he))
  leaving := h.leaving
  entering := h.entering

theorem addVertexWithId (h : g.Consistent) {id : VertexId} {label : String}
    (ok : g.addVertexWithId id label = .ok g') : g'.Consistent := by
  rw [Graph.addVertexWithId] at ok
  split at ok
  · cases ok
  · cases ok
    exact h.insertVertex id _ _

theorem addEdgeWithId (h : g.Consistent) {id : EdgeId} {tail head : VertexId} {label : String}
    (ok : g.addEdgeWithId id tail label head = .ok g') : g'.Consistent := by
  rw [Graph.addEdgeWithId] at ok
  split at ok
  · cases ok
  · rename_i htail
    split at ok
    · cases ok
    · rename_i hhead
      split at ok
      · cases ok
      · rename_i hid
        have hfree : g.edges.contains id = false := by simpa using hid
        cases ok
        constructor
        · intro e r he
          rw [OrderedMap.get?_insert] at he
          split at he
          · cases he
            simpa using htail
          · exact h.tail he
        · intro e r he
          rw [OrderedMap.get?_insert] at he
          split at he
          · cases he
            simpa using hhead
          · exact h.head he
        · exact h.leaving.attach (r := { label, tail, head }) hfree
        · exact h.entering.attach (r := { label, tail, head }) hfree

theorem withLastId (h : g.Consistent) (lastId : Nat) : Consistent { g with lastId } :=
  ⟨h.tail, h.head, h.leaving, h.entering⟩

theorem addEdge (h : g.Consistent) (tail : VertexId) (label : String) (head : VertexId) :
    (g.addEdge tail label head).2.Consistent := by
  simp only [Graph.addEdge]
  split
  · rename_i ok
    exact (h.withLastId _).addEdgeWithId ok
  · exact h.withLastId _

theorem setProperty (h : g.Consistent) {element value : Value} {key : String}
    (ok : g.setProperty? element key value = some g') : g'.Consistent := by
  cases element with
  | vertex v =>
    simp only [Graph.setProperty?] at ok
    split at ok
    · cases ok
      exact ⟨fun he => OrderedMap.contains_modify.trans (h.tail he),
        fun he => OrderedMap.contains_modify.trans (h.head he), h.leaving, h.entering⟩
    · cases ok
  | edge e =>
    simp only [Graph.setProperty?] at ok
    split at ok
    · cases ok
      have hrecord {e' : EdgeId} {r : EdgeRecord}
          (he : (g.edges.modify e fun r =>
            { r with properties := r.properties.insert key value }).get? e' = some r) :
          ∃ r', g.edges.get? e' = some r' ∧ r.tail = r'.tail ∧ r.head = r'.head := by
        rw [OrderedMap.get?_modify] at he
        split at he
        · obtain ⟨r', hr', rfl⟩ := Option.map_eq_some_iff.1 he
          exact ⟨r', hr', rfl, rfl⟩
        · exact ⟨r, he, rfl, rfl⟩
      refine ⟨fun he => ?_, fun he => ?_, h.leaving.modify fun _ => rfl, h.entering.modify fun _ => rfl⟩
      · obtain ⟨r', hr', htail, -⟩ := hrecord he
        exact htail ▸ h.tail hr'
      · obtain ⟨r', hr', -, hhead⟩ := hrecord he
        exact hhead ▸ h.head hr'
    · cases ok
  | _ => cases ok

theorem removeEdge (h : g.Consistent) (e : EdgeId) : (g.removeEdge e).Consistent := by
  rw [Graph.removeEdge]
  split
  · exact h
  · rename_i r hr
    refine ⟨fun {e' r'} he => ?_, fun {e' r'} he => ?_, h.leaving.detach hr, h.entering.detach hr⟩
    · rw [OrderedMap.get?_erase] at he
      split at he
      · cases he
      · exact h.tail he
    · rw [OrderedMap.get?_erase] at he
      split at he
      · cases he
      · exact h.head he

theorem removeEdges (h : g.Consistent) (l : List EdgeId) : (l.foldl Graph.removeEdge g).Consistent := by
  induction l generalizing g with
  | nil => exact h
  | cons e l ih => exact ih (h.removeEdge e)

end Consistent

theorem get?_edges_removeEdge (g : Graph) (e e' : EdgeId) :
    (g.removeEdge e).edges.get? e' = if e' = e then none else g.edges.get? e' := by
  rw [removeEdge]
  split
  · rename_i hnone
    by_cases he : e' = e
    · rw [if_pos he, he, hnone]
    · rw [if_neg he]
  · exact OrderedMap.get?_erase g.edges e e'

theorem get?_edges_removeEdges (g : Graph) (l : List EdgeId) (e' : EdgeId) :
    (l.foldl removeEdge g).edges.get? e' = if e' ∈ l then none else g.edges.get? e' := by
  induction l generalizing g with
  | nil => simp
  | cons e l ih =>
    rw [List.foldl_cons, ih, get?_edges_removeEdge]
    by_cases hl : e' ∈ l
    · simp [hl]
    · by_cases he : e' = e <;> simp [hl, he]

namespace Consistent

variable {g : Graph}

theorem mem_edgesAt (h : g.Consistent) {e : EdgeId} {r : EdgeRecord}
    (hr : g.edges.get? e = some r) {v : VertexId} (hv : r.tail = v ∨ r.head = v) :
    e ∈ g.edgesAt v .both := by
  simp only [edgesAt, h.leaving v, h.entering v, List.mem_append, mem_edgesEnding]
  rcases hv with hv | hv
  · exact .inl ⟨r, hr, hv⟩
  · exact .inr ⟨r, hr, hv⟩

theorem removeVertex (h : g.Consistent) (v : VertexId) : (g.removeVertex v).Consistent := by
  have hremoved := h.removeEdges (g.edgesAt v .both)
  have hends {e : EdgeId} {r : EdgeRecord}
      (hr : ((g.edgesAt v .both).foldl Graph.removeEdge g).edges.get? e = some r) :
      r.tail ≠ v ∧ r.head ≠ v := by
    rw [get?_edges_removeEdges] at hr
    split at hr
    · cases hr
    · rename_i hnot
      exact ⟨fun hv => hnot (h.mem_edgesAt hr (.inl hv)), fun hv => hnot (h.mem_edgesAt hr (.inr hv))⟩
  exact ⟨fun he => OrderedMap.contains_erase_iff.2 ⟨(hends he).1, hremoved.tail he⟩,
    fun he => OrderedMap.contains_erase_iff.2 ⟨(hends he).2, hremoved.head he⟩,
    hremoved.leaving.erase (edgesEnding_eq_nil fun he => (hends he).1),
    hremoved.entering.erase (edgesEnding_eq_nil fun he => (hends he).2)⟩

theorem remove (h : g.Consistent) (element : Value) : (g.remove element).Consistent := by
  cases element with
  | vertex v => exact h.removeVertex v
  | edge e => exact h.removeEdge e
  | _ => exact h

end Consistent

theorem mem_edgesAt_outward {g : Graph} (h : g.Consistent) {x : VertexId} {e : EdgeId} :
    e ∈ g.edgesAt x .outward ↔ ∃ r, g.edges.get? e = some r ∧ r.tail = x := by
  simp only [edgesAt, h.leaving x, mem_edgesEnding]

theorem mem_edgesAt_inward {g : Graph} (h : g.Consistent) {x : VertexId} {e : EdgeId} :
    e ∈ g.edgesAt x .inward ↔ ∃ r, g.edges.get? e = some r ∧ r.head = x := by
  simp only [edgesAt, h.entering x, mem_edgesEnding]

/-! ## Neighbours -/

/-- The vertex at the other end of an edge, as a step to the neighbours of `x` takes it. -/
def across? (g : Graph) (x : VertexId) (d : Direction) (e : EdgeId) : Option VertexId :=
  (g.edges.get? e).map fun r => if r.tail = x ∧ d ≠ .inward then r.head else r.tail

def adjacentOver (g : Graph) (allowed : EdgeId → Bool) (x : VertexId) (d : Direction)
    (labels : List String) : List VertexId :=
  ((g.incident x d labels).filter allowed).filterMap (g.across? x d)

theorem adjacent_eq_over (g : Graph) (allowed : EdgeId → Bool) (hall : ∀ e, allowed e = true)
    (x : VertexId) (d : Direction) (labels : List String) :
    g.adjacent x d labels = g.adjacentOver allowed x d labels := by
  rw [adjacentOver, List.filter_eq_self.2 fun e _ => hall e]
  rfl

section Neighbours

variable {g : Graph}

/-- Going to the neighbours over some of the edges is going to these edges and on to their other
ends. -/
theorem Consistent.adjacentOver_eq (h : g.Consistent) (allowed : EdgeId → Bool) (x : VertexId)
    {d : Direction} (hd : d ≠ .both) (labels : List String) :
    g.adjacentOver allowed x d labels =
      ((g.incident x d labels).filter allowed).flatMap (g.endpoints · d.opposite) := by
  rw [adjacentOver, List.filterMap_eq_flatMap_toList]
  apply List.flatMap_congr
  intro e he
  have hmem := (List.mem_filter.1 (List.mem_filter.1 he).1).1
  cases d with
  | outward =>
    obtain ⟨r, hr, htail⟩ := (mem_edgesAt_outward h).1 hmem
    simp [across?, endpoints, hr, htail, Direction.opposite]
  | inward =>
    obtain ⟨r, hr, -⟩ := (mem_edgesAt_inward h).1 hmem
    simp [across?, endpoints, hr, Direction.opposite]
  | both => exact absurd rfl hd

/-- Going to the neighbours is going to the edges and on to their other ends. -/
theorem Consistent.adjacent_eq (h : g.Consistent) (x : VertexId) {d : Direction} (hd : d ≠ .both)
    (labels : List String) :
    g.adjacent x d labels = (g.incident x d labels).flatMap (g.endpoints · d.opposite) := by
  rw [g.adjacent_eq_over (fun _ => true) fun _ => rfl, h.adjacentOver_eq _ x hd, List.filter_true]

end Neighbours

/-- Every graph that the operations build is consistent. -/
theorem Reachable.consistent {g : Graph} (h : g.Reachable) : g.Consistent := by
  induction h with
  | empty => exact .empty
  | addVertex _ label ih => exact ih.insertVertex _ _ _
  | addVertexWithId _ ok ih => exact ih.addVertexWithId ok
  | addEdge _ tail label head ih => exact ih.addEdge tail label head
  | addEdgeWithId _ ok ih => exact ih.addEdgeWithId ok
  | setProperty _ ok ih => exact ih.setProperty ok
  | remove _ element ih => exact ih.remove element

end GraphTraversal.Graph
