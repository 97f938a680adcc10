import Mathlib.Order.Lattice
import Mathlib.Tactic.SplitIfs
import GraphTraversal.Proofs.Graph.Consistency

/-! # Graphs under any calls

The counter for fresh ids never falls behind an id in use, whether ids are given or taken, and a call
that is refused leaves everything but the counter as it was.  With the consistency of edges and lists
this describes every state that calls on an empty graph lead to.
-/

namespace GraphTraversal.Graph

/-- The counter has reached every id in use. -/
structure Counted (g : Graph) : Prop where
  vertices : ∀ {v}, g.vertices.contains v → v.val ≤ g.lastId
  edges : ∀ {e}, g.edges.contains e → e.val ≤ g.lastId

/-! ## Operations -/

namespace Counted

variable {g g' : Graph}

theorem empty : Graph.empty.Counted where
  vertices h := by cases h
  edges h := by cases h

/-- Ids may come in as far as the counter has gone; any may go. -/
theorem of_subset (h : g.Counted) (hcounter : g.lastId ≤ g'.lastId)
    (hvertices : ∀ v, g'.vertices.contains v → g.vertices.contains v ∨ v.val ≤ g'.lastId)
    (hedges : ∀ e, g'.edges.contains e → g.edges.contains e ∨ e.val ≤ g'.lastId) : g'.Counted where
  vertices hv := (hvertices _ hv).elim (fun hv => (h.vertices hv).trans hcounter) id
  edges he := (hedges _ he).elim (fun he => (h.edges he).trans hcounter) id

theorem insertVertex (h : g.Counted) {v : VertexId} {lastId : Nat} (hcounter : g.lastId ≤ lastId)
    (hv : v.val ≤ lastId) (r : VertexRecord) :
    Counted { g with vertices := g.vertices.insert v r, lastId } := by
  refine h.of_subset hcounter (fun w hw => ?_) fun e he => .inl he
  rcases OrderedMap.contains_insert_iff.1 hw with rfl | hw
  · exact .inr hv
  · exact .inl hw

theorem addVertexWithId (h : g.Counted) {id : VertexId} {label : String}
    (ok : g.addVertexWithId id label = .ok g') : g'.Counted := by
  rw [Graph.addVertexWithId] at ok
  split at ok
  · cases ok
  · cases ok
    exact h.insertVertex (le_max_left ..) (le_max_right ..) _

theorem addEdgeWithId (h : g.Counted) {id : EdgeId} {tail head : VertexId} {label : String}
    (ok : g.addEdgeWithId id tail label head = .ok g') : g'.Counted := by
  rw [Graph.addEdgeWithId] at ok
  split_ifs at ok
  cases ok
  refine h.of_subset (le_max_left ..) (fun v hv => .inl hv) fun e he => ?_
  rcases OrderedMap.contains_insert_iff.1 he with rfl | he
  · exact .inr (le_max_right ..)
  · exact .inl he

theorem withLastId (h : g.Counted) {lastId : Nat} (hcounter : g.lastId ≤ lastId) :
    Counted { g with lastId } :=
  h.of_subset hcounter (fun _ hv => .inl hv) fun _ he => .inl he

theorem addEdge (h : g.Counted) (tail : VertexId) (label : String) (head : VertexId) :
    (g.addEdge tail label head).2.Counted := by
  have hcounter := h.withLastId (Nat.le_succ g.lastId)
  simp only [Graph.addEdge]
  split
  · rename_i ok
    exact hcounter.addEdgeWithId ok
  · exact hcounter

theorem setProperty (h : g.Counted) {element value : Value} {key : String}
    (ok : g.setProperty? element key value = some g') : g'.Counted := by
  cases element with
  | vertex v =>
    simp only [Graph.setProperty?] at ok
    split at ok
    · cases ok
      refine h.of_subset le_rfl (fun w hw => .inl ?_) fun e he => .inl he
      rwa [OrderedMap.contains_modify] at hw
    · cases ok
  | edge e =>
    simp only [Graph.setProperty?] at ok
    split at ok
    · cases ok
      refine h.of_subset le_rfl (fun w hw => .inl hw) fun e he => .inl ?_
      rwa [OrderedMap.contains_modify] at he
    · cases ok
  | _ => cases ok

theorem removeEdge (h : g.Counted) (e : EdgeId) : (g.removeEdge e).Counted := by
  rw [Graph.removeEdge]
  split
  · exact h
  · exact h.of_subset le_rfl (fun v hv => .inl hv)
      fun e he => .inl (OrderedMap.contains_erase_iff.1 he).2

theorem removeEdges (h : g.Counted) (l : List EdgeId) : (l.foldl Graph.removeEdge g).Counted := by
  induction l generalizing g with
  | nil => exact h
  | cons e l ih => exact ih (h.removeEdge e)

theorem remove (h : g.Counted) (element : Value) : (g.remove element).Counted := by
  cases element with
  | vertex v =>
    exact (h.removeEdges (g.edgesAt v .both)).of_subset le_rfl
      (fun w hw => .inl (OrderedMap.contains_erase_iff.1 hw).2) fun e he => .inl he
  | edge e => exact h.removeEdge e
  | _ => exact h

/-! ## Fresh ids -/

theorem fresh_vertex (h : g.Counted) : g.vertices.contains ⟨g.lastId + 1⟩ = false := by
  by_contra hv
  exact absurd (h.vertices (by simpa using hv)) (Nat.lt_irrefl _)

theorem fresh_edge (h : g.Counted) : g.edges.contains ⟨g.lastId + 1⟩ = false := by
  by_contra he
  exact absurd (h.edges (by simpa using he)) (Nat.lt_irrefl _)

/-- A new vertex leaves those that are there as they are. -/
theorem get?_addVertex (h : g.Counted) (label : String) {v : VertexId} {r : VertexRecord}
    (hv : g.vertices.get? v = some r) : (g.addVertex label).2.vertices.get? v = some r := by
  have hne : v ≠ ⟨g.lastId + 1⟩ := by
    rintro rfl
    have hfresh := h.fresh_vertex
    rw [OrderedMap.contains, hv] at hfresh
    cases hfresh
  rw [addVertex, OrderedMap.get?_insert, if_neg hne, hv]

/-- An edge between vertices of the graph is never refused. -/
theorem addEdge_ok (h : g.Counted) {tail head : VertexId} (htail : g.vertices.contains tail)
    (hhead : g.vertices.contains head) (label : String) :
    (g.addEdge tail label head).1 = .ok ⟨g.lastId + 1⟩ := by
  simp [Graph.addEdge, Graph.addEdgeWithId, htail, hhead, h.fresh_edge]

end Counted

theorem Reachable.counted {g : Graph} (h : g.Reachable) : g.Counted := by
  induction h with
  | empty => exact .empty
  | addVertex _ label ih => exact ih.insertVertex (Nat.le_succ _) le_rfl _
  | addVertexWithId _ ok ih => exact ih.addVertexWithId ok
  | addEdge _ tail label head ih => exact ih.addEdge tail label head
  | addEdgeWithId _ ok ih => exact ih.addEdgeWithId ok
  | setProperty _ ok ih => exact ih.setProperty ok
  | remove _ element ih => exact ih.remove element

/-! ## Lists at a vertex -/

theorem nodup_edgesEnding (edges : OrderedMap EdgeId EdgeRecord) (ends : EdgeRecord → VertexId)
    (v : VertexId) : (edgesEnding edges ends v).Nodup :=
  edges.nodup.sublist (List.filter_sublist.map _)

theorem Consistent.edgesAt_outward {g : Graph} (h : g.Consistent) (v : VertexId) :
    g.edgesAt v .outward = edgesEnding g.edges (·.tail) v :=
  h.leaving v

theorem Consistent.edgesAt_inward {g : Graph} (h : g.Consistent) (v : VertexId) :
    g.edgesAt v .inward = edgesEnding g.edges (·.head) v :=
  h.entering v

/-- No edge is listed where there is no vertex. -/
theorem Consistent.edgesAt_absent {g : Graph} (h : g.Consistent) {v : VertexId}
    (hv : g.vertices.contains v = false) : g.edgesAt v .outward = [] ∧ g.edgesAt v .inward = [] := by
  have hne {w : VertexId} (hw : g.vertices.contains w) : w ≠ v := by
    rintro rfl
    rw [hw] at hv
    cases hv
  rw [h.edgesAt_outward, h.edgesAt_inward]
  exact ⟨edgesEnding_eq_nil fun hr => hne (h.tail hr), edgesEnding_eq_nil fun hr => hne (h.head hr)⟩

theorem contains_removeVertex (g : Graph) (v : VertexId) :
    (g.removeVertex v).vertices.contains v = false := by
  rw [removeVertex, OrderedMap.contains, OrderedMap.get?_erase, if_pos rfl]
  rfl

/-! ## Calls -/

inductive Call where
  | addVertex (label : String)
  | addVertexWithId (id : VertexId) (label : String)
  | addEdge (tail : VertexId) (label : String) (head : VertexId)
  | addEdgeWithId (id : EdgeId) (tail : VertexId) (label : String) (head : VertexId)
  | setProperty (element : Value) (key : String) (value : Value)
  | remove (element : Value)

/-- The error of a call that is refused, and the graph after the call. -/
def Call.perform (g : Graph) : Call → Option Error × Graph
  | .addVertex label => (none, (g.addVertex label).2)
  | .addVertexWithId id label =>
    match g.addVertexWithId id label with
    | .ok g => (none, g)
    | .error e => (some e, g)
  | .addEdge tail label head =>
    match g.addEdge tail label head with
    | (.ok _, g) => (none, g)
    | (.error e, g) => (some e, g)
  | .addEdgeWithId id tail label head =>
    match g.addEdgeWithId id tail label head with
    | .ok g => (none, g)
    | .error e => (some e, g)
  | .setProperty element key value => (none, (g.setProperty? element key value).getD g)
  | .remove element => (none, g.remove element)

/-- The graph after calls one after another, whether they are refused or not. -/
def performAll (calls : List Call) (g : Graph) : Graph := calls.foldl (fun g c => (c.perform g).2) g

theorem Reachable.perform {g : Graph} (h : g.Reachable) (c : Call) : (c.perform g).2.Reachable := by
  cases c with
  | addVertex label => exact h.addVertex label
  | addVertexWithId id label =>
    rw [Call.perform]
    split
    · rename_i ok
      exact h.addVertexWithId ok
    · exact h
  | addEdge tail label head =>
    have hadded := h.addEdge tail label head
    rw [Call.perform]
    split <;> simpa only [*] using hadded
  | addEdgeWithId id tail label head =>
    rw [Call.perform]
    split
    · rename_i ok
      exact h.addEdgeWithId ok
    · exact h
  | setProperty element key value =>
    cases ok : g.setProperty? element key value with
    | none => simpa [Call.perform, ok] using h
    | some g' => simpa [Call.perform, ok] using h.setProperty ok
  | remove element => exact h.remove element

theorem Reachable.performAll {g : Graph} (h : g.Reachable) (calls : List Call) :
    (performAll calls g).Reachable := by
  induction calls generalizing g with
  | nil => exact h
  | cons c calls ih => exact ih (h.perform c)

/-- A refused call changes nothing but the counter. -/
theorem Call.perform_refused {g : Graph} {c : Call} {e : Error} (h : (c.perform g).1 = some e) :
    (c.perform g).2 = { g with lastId := (c.perform g).2.lastId } := by
  cases c with
  | addVertexWithId id label =>
    rw [perform] at h ⊢
    split at h
    · cases h
    · simp only [*]
  | addEdge tail label head =>
    have hrefused : ∀ e, (g.addEdge tail label head).1 = .error e →
        (g.addEdge tail label head).2 = { g with lastId := g.lastId + 1 } := by
      intro e he
      simp only [Graph.addEdge] at he ⊢
      split at he
      · cases he
      · simp only [*]
    rw [perform] at h ⊢
    split at h
    · cases h
    · rename_i hadded
      simp only [hadded] at hrefused ⊢
      rw [hrefused _ rfl]
  | addEdgeWithId id tail label head =>
    rw [perform] at h ⊢
    split at h
    · cases h
    · simp only [*]
  | _ => cases h

/-! ## The counter -/

theorem lastId_removeEdge (g : Graph) (e : EdgeId) : (g.removeEdge e).lastId = g.lastId := by
  rw [removeEdge]
  split <;> rfl

theorem lastId_removeEdges (g : Graph) (l : List EdgeId) :
    (l.foldl removeEdge g).lastId = g.lastId := by
  induction l generalizing g with
  | nil => rfl
  | cons e l ih => exact (ih _).trans (g.lastId_removeEdge e)

theorem lastId_addVertexWithId {g g' : Graph} {id : VertexId} {label : String}
    (ok : g.addVertexWithId id label = .ok g') : g'.lastId = max g.lastId id.val := by
  rw [addVertexWithId] at ok
  split_ifs at ok
  cases ok
  rfl

theorem lastId_addEdgeWithId {g g' : Graph} {id : EdgeId} {tail head : VertexId} {label : String}
    (ok : g.addEdgeWithId id tail label head = .ok g') : g'.lastId = max g.lastId id.val := by
  rw [addEdgeWithId] at ok
  split_ifs at ok
  cases ok
  rfl

theorem lastId_addEdge (g : Graph) (tail : VertexId) (label : String) (head : VertexId) :
    (g.addEdge tail label head).2.lastId = g.lastId + 1 := by
  simp only [addEdge]
  split
  · rename_i ok
    exact (lastId_addEdgeWithId ok).trans (max_self _)
  · rfl

/-- The counter never goes back. -/
theorem lastId_le_perform (g : Graph) (c : Call) : g.lastId ≤ (c.perform g).2.lastId := by
  cases c with
  | addVertex label => exact Nat.le_succ _
  | addVertexWithId id label =>
    rw [Call.perform]
    split
    · rename_i ok
      exact (lastId_addVertexWithId ok).symm ▸ le_max_left ..
    · exact le_rfl
  | addEdge tail label head =>
    have hnext := g.lastId_addEdge tail label head
    rw [Call.perform]
    split <;> simp_all
  | addEdgeWithId id tail label head =>
    rw [Call.perform]
    split
    · rename_i ok
      exact (lastId_addEdgeWithId ok).symm ▸ le_max_left ..
    · exact le_rfl
  | setProperty element key value =>
    cases element with
    | vertex v =>
      simp only [Call.perform, setProperty?]
      split <;> exact le_rfl
    | edge e =>
      simp only [Call.perform, setProperty?]
      split <;> exact le_rfl
    | _ => exact le_rfl
  | remove element =>
    cases element with
    | vertex v => exact (lastId_removeEdges g (g.edgesAt v .both)).ge
    | edge e => exact (lastId_removeEdge g e).ge
    | _ => exact le_rfl

theorem lastId_le_performAll (calls : List Call) (g : Graph) :
    g.lastId ≤ (performAll calls g).lastId := by
  induction calls generalizing g with
  | nil => exact le_rfl
  | cons c calls ih => exact (g.lastId_le_perform c).trans (ih _)

theorem lt_addVertex (calls : List Call) (label : String) (g : Graph) :
    g.lastId < ((performAll calls g).addVertex label).1.val :=
  Nat.lt_succ_of_le (lastId_le_performAll calls g)

theorem lt_addEdge {calls : List Call} {tail head : VertexId} {label : String} {g : Graph} {e : EdgeId}
    (h : ((performAll calls g).addEdge tail label head).1 = .ok e) : g.lastId < e.val := by
  have he : e = ⟨(performAll calls g).lastId + 1⟩ := by
    simp only [addEdge] at h
    split at h
    · exact (Except.ok.inj h).symm
    · cases h
  rw [he]
  exact Nat.lt_succ_of_le (lastId_le_performAll calls g)

/-! ## Every state -/

/-- Every state that calls on an empty graph lead to: edges join vertices and are listed at their ends,
each once and in their order; the counter has reached every id, so that a new vertex replaces none and
an edge between vertices is accepted; and a refused call changes nothing but the counter. -/
theorem performAll_represents (calls : List Call) :
    let g := performAll calls .empty
    (∀ e r, g.edges.get? e = some r → g.vertices.contains r.tail ∧ g.vertices.contains r.head) ∧
      (∀ v, g.edgesAt v .outward = edgesEnding g.edges (·.tail) v ∧
        g.edgesAt v .inward = edgesEnding g.edges (·.head) v ∧
        (g.edgesAt v .outward).Nodup ∧ (g.edgesAt v .inward).Nodup) ∧
      (∀ v, (g.remove (.vertex v)).vertices.contains v = false) ∧
      (∀ v, g.vertices.contains v = false → g.edgesAt v .outward = [] ∧ g.edgesAt v .inward = []) ∧
      (∀ v, g.vertices.contains v → v.val ≤ g.lastId) ∧
      (∀ e, g.edges.contains e → e.val ≤ g.lastId) ∧
      (∀ label v r, g.vertices.get? v = some r →
        (g.addVertex label).2.vertices.get? v = some r) ∧
      (∀ tail label head, g.vertices.contains tail → g.vertices.contains head →
        ∃ e, (g.addEdge tail label head).1 = .ok e) ∧
      ∀ c e, (Call.perform g c).1 = some e →
        (c.perform g).2 = { g with lastId := (c.perform g).2.lastId } := by
  intro g
  have hreachable : g.Reachable := Reachable.empty.performAll calls
  have hg := hreachable.consistent
  have hcounted := hreachable.counted
  refine ⟨fun e r hr => ⟨hg.tail hr, hg.head hr⟩, fun v => ?_, g.contains_removeVertex,
    fun v => hg.edgesAt_absent, fun v => hcounted.vertices,
    fun e => hcounted.edges, fun label v r => hcounted.get?_addVertex label,
    fun tail label head htail hhead => ⟨_, hcounted.addEdge_ok htail hhead label⟩,
    fun c e => Call.perform_refused⟩
  rw [hg.edgesAt_outward, hg.edgesAt_inward]
  exact ⟨rfl, rfl, nodup_edgesEnding .., nodup_edgesEnding ..⟩

end GraphTraversal.Graph
