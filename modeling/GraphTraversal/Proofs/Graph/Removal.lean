import Mathlib.Data.List.Dedup
import GraphTraversal.Proofs.Graph.Adjacency

/-! # Removing elements

Removing a vertex takes the edges at it along, one after another, while the lists of their other ends are
edited.  In a consistent graph the outcome can be said at once: what is left is the part of the graph that
the removed elements spare, with everything in its old order.  So it does not matter in which order
elements are removed, or how often.
-/

namespace GraphTraversal

/-! ## What a list of elements spares -/

namespace Graph

def spares (gone : List Value) (v : VertexId) : Bool := decide (.vertex v ∉ gone)

/-- Whether neither an edge nor an end of it is among the elements. -/
def sparesEdge (gone : List Value) (e : EdgeId) (r : EdgeRecord) : Bool :=
  decide (.edge e ∉ gone) && (spares gone r.tail && spares gone r.head)

/-- Lists for the spared vertices, of the edges that are still there. -/
def thinned (lists : OrderedMap VertexId (List EdgeId)) (gone : List Value)
    (edges : OrderedMap EdgeId EdgeRecord) : OrderedMap VertexId (List EdgeId) :=
  (lists.filter fun v _ => spares gone v).mapValues fun _ l => l.filter edges.contains

/-- The part of a graph that the elements spare. -/
def without (g : Graph) (gone : List Value) : Graph :=
  let edges := g.edges.filter (sparesEdge gone)
  { g with
    vertices := g.vertices.filter fun v _ => spares gone v
    edges
    leaving := thinned g.leaving gone edges
    entering := thinned g.entering gone edges }

section Spared

variable {gone gone' : List Value}

theorem spares_append (v : VertexId) :
    spares (gone ++ gone') v = (spares gone v && spares gone' v) := by
  simp [spares]

theorem sparesEdge_append (e : EdgeId) (r : EdgeRecord) :
    sparesEdge (gone ++ gone') e r = (sparesEdge gone e r && sparesEdge gone' e r) := by
  simp only [sparesEdge, spares_append, List.mem_append, not_or, Bool.decide_and]
  ac_rfl

theorem without_congr (g : Graph) (h : ∀ x, x ∈ gone ↔ x ∈ gone') :
    g.without gone = g.without gone' := by
  have hvertex : spares gone = spares gone' := by
    funext v
    simp only [spares, h]
  have hedge : sparesEdge gone = sparesEdge gone' := by
    funext e r
    simp only [sparesEdge, hvertex, h]
  simp only [without, thinned, hvertex, hedge]

theorem thinned_thinned (lists : OrderedMap VertexId (List EdgeId))
    {edges edges' : OrderedMap EdgeId EdgeRecord} (h : ∀ e, edges'.contains e → edges.contains e) :
    thinned (thinned lists gone edges) gone' edges' = thinned lists (gone ++ gone') edges' := by
  have hlist (l : List EdgeId) :
      (l.filter edges.contains).filter edges'.contains = l.filter edges'.contains := by
    rw [List.filter_filter]
    exact List.filter_congr fun e _ => Bool.and_eq_left_iff_imp.2 (h e)
  simp only [thinned, OrderedMap.filter_mapValues, OrderedMap.mapValues_mapValues,
    OrderedMap.filter_filter, hlist, ← spares_append]

/-- Elements may be taken out in two lots. -/
theorem without_without (g : Graph) (gone gone' : List Value) :
    (g.without gone).without gone' = g.without (gone ++ gone') := by
  have hedges : (g.edges.filter (sparesEdge gone)).filter (sparesEdge gone') =
      g.edges.filter (sparesEdge (gone ++ gone')) := by
    simp only [OrderedMap.filter_filter, ← sparesEdge_append]
  have hsubset : ∀ e, (g.edges.filter (sparesEdge (gone ++ gone'))).contains e →
      (g.edges.filter (sparesEdge gone)).contains e := by
    rw [← hedges]
    exact fun _ => OrderedMap.contains_of_filter
  simp only [without, hedges, thinned_thinned _ hsubset, OrderedMap.filter_filter, ← spares_append]

end Spared

/-! ## One element -/

section Lists

variable {lists : OrderedMap VertexId (List EdgeId)} {edges : OrderedMap EdgeId EdgeRecord}
  {ends : EdgeRecord → VertexId}

theorem Lists.eq_edgesEnding (h : Lists lists edges ends) {v : VertexId} {l : List EdgeId}
    (hl : lists.get? v = some l) : l = edgesEnding edges ends v := by
  have hv := h v
  rwa [hl, Option.getD_some] at hv

theorem contains_of_mem_edgesEnding {v : VertexId} {e : EdgeId} (he : e ∈ edgesEnding edges ends v) :
    edges.contains e := by
  obtain ⟨r, hr, -⟩ := mem_edgesEnding.1 he
  exact Option.isSome_iff_exists.2 ⟨r, hr⟩

theorem Lists.thinned_eq_self (h : Lists lists edges ends) {gone : List Value}
    (hgone : ∀ v, spares gone v = true) : thinned lists gone edges = lists := by
  rw [thinned, OrderedMap.filter_eq_self fun v _ _ => hgone v]
  refine OrderedMap.mapValues_eq_self fun v l hl => List.filter_eq_self.2 fun e he => ?_
  rw [h.eq_edgesEnding hl] at he
  exact contains_of_mem_edgesEnding he

theorem spares_edge (e : EdgeId) (v : VertexId) : spares [.edge e] v = true := by
  simp [spares]

theorem Lists.detach_eq_thinned (h : Lists lists edges ends) {e : EdgeId} {r : EdgeRecord}
    (hr : edges.get? e = some r) :
    Graph.detach lists (ends r) e = thinned lists [.edge e] (edges.erase e) := by
  rw [Graph.detach, OrderedMap.modify, thinned,
    OrderedMap.filter_eq_self fun v _ _ => spares_edge e v]
  refine OrderedMap.mapValues_congr fun v l hl => ?_
  have hthinned : l.filter (edges.erase e).contains = l.filter (· ≠ e) := by
    apply List.filter_congr
    intro e' he'
    rw [h.eq_edgesEnding hl] at he'
    rw [Bool.eq_iff_iff, OrderedMap.contains_erase_iff, decide_eq_true_iff]
    exact and_iff_left (contains_of_mem_edgesEnding he')
  rw [hthinned]
  split
  · rfl
  · rename_i hv
    refine (List.filter_eq_self.2 fun e' he' => ?_).symm
    rw [h.eq_edgesEnding hl] at he'
    rw [decide_eq_true_iff]
    rintro rfl
    obtain ⟨r', hr', hends⟩ := mem_edgesEnding.1 he'
    cases hr.symm.trans hr'
    exact hv hends.symm

end Lists

namespace Consistent

variable {g : Graph}

theorem without_eq_self (h : g.Consistent) {gone : List Value} (hvertex : ∀ v, spares gone v = true)
    (hedge : ∀ e r, g.edges.get? e = some r → .edge e ∉ gone) : g.without gone = g := by
  have hvertices : (g.vertices.filter fun v _ => spares gone v) = g.vertices :=
    OrderedMap.filter_eq_self fun v _ _ => hvertex v
  have hedges : g.edges.filter (sparesEdge gone) = g.edges :=
    OrderedMap.filter_eq_self fun e r hr => by simp [sparesEdge, hvertex, hedge e r hr]
  simp only [without, hvertices, hedges, h.leaving.thinned_eq_self hvertex,
    h.entering.thinned_eq_self hvertex]

theorem removeEdge_eq (h : g.Consistent) (e : EdgeId) : g.removeEdge e = g.without [.edge e] := by
  rw [Graph.removeEdge]
  split
  · rename_i hnone
    refine (h.without_eq_self (spares_edge e) fun e' r hr hmem => ?_).symm
    obtain rfl : e' = e := by simpa using hmem
    cases hnone.symm.trans hr
  · rename_i r hr
    have hvertices : (g.vertices.filter fun v _ => spares [.edge e] v) = g.vertices :=
      OrderedMap.filter_eq_self fun v _ _ => spares_edge e v
    have hedges : g.edges.filter (sparesEdge [.edge e]) = g.edges.erase e := by
      rw [OrderedMap.erase_eq_filter]
      exact OrderedMap.filter_congr fun e' r _ => by simp [sparesEdge, spares]
    simp only [without, hvertices, hedges, h.leaving.detach_eq_thinned hr,
      h.entering.detach_eq_thinned hr]

theorem removeEdges_eq (h : g.Consistent) (l : List EdgeId) :
    l.foldl Graph.removeEdge g = g.without (l.map .edge) := by
  induction l generalizing g with
  | nil => exact (h.without_eq_self (fun _ => rfl) fun _ _ _ => List.not_mem_nil).symm
  | cons e l ih =>
    rw [List.foldl_cons, ih (h.removeEdge e), h.removeEdge_eq e, without_without, List.map_cons,
      List.singleton_append]

theorem mem_edgesAt_iff (h : g.Consistent) {e : EdgeId} {r : EdgeRecord}
    (hr : g.edges.get? e = some r) {v : VertexId} :
    e ∈ g.edgesAt v .both ↔ r.tail = v ∨ r.head = v := by
  refine ⟨fun he => ?_, h.mem_edgesAt hr⟩
  rcases List.mem_append.1 he with he | he
  · obtain ⟨r', hr', hv⟩ := (mem_edgesAt_outward h).1 he
    cases hr.symm.trans hr'
    exact .inl hv
  · obtain ⟨r', hr', hv⟩ := (mem_edgesAt_inward h).1 he
    cases hr.symm.trans hr'
    exact .inr hv

theorem removeVertex_eq (h : g.Consistent) (v : VertexId) :
    g.removeVertex v = g.without [.vertex v] := by
  have hvertex (w : VertexId) : (spares ((g.edgesAt v .both).map .edge) w && decide (w ≠ v)) =
      spares [.vertex v] w := by
    simp [spares]
  have hedges : g.edges.filter (sparesEdge ((g.edgesAt v .both).map .edge)) =
      g.edges.filter (sparesEdge [.vertex v]) := by
    refine OrderedMap.filter_congr fun e r hr => ?_
    simp [sparesEdge, spares, h.mem_edgesAt_iff hr]
  have hlists (lists : OrderedMap VertexId (List EdgeId)) (edges : OrderedMap EdgeId EdgeRecord) :
      (thinned lists ((g.edgesAt v .both).map .edge) edges).erase v =
        thinned lists [.vertex v] edges := by
    simp only [thinned, OrderedMap.erase_eq_filter, OrderedMap.filter_mapValues,
      OrderedMap.filter_filter, hvertex]
  rw [Graph.removeVertex, h.removeEdges_eq]
  simp only [without, hedges, hlists]
  simp only [OrderedMap.erase_eq_filter, OrderedMap.filter_filter, hvertex]

/-- Removing an element leaves the part of the graph that it spares. -/
theorem remove_eq (h : g.Consistent) (x : Value) : g.remove x = g.without [x] := by
  cases x with
  | vertex v => exact h.removeVertex_eq v
  | edge e => exact h.removeEdge_eq e
  | _ => exact (h.without_eq_self (fun v => by simp [spares]) fun e r _ => by simp).symm

end Consistent

/-! ## Many elements -/

def removeAll (l : List Value) (g : Graph) : Graph := l.foldl remove g

namespace Reachable

variable {g : Graph}

theorem removeAll (h : g.Reachable) (l : List Value) : (removeAll l g).Reachable := by
  induction l generalizing g with
  | nil => exact h
  | cons x l ih => exact ih (h.remove x)

/-- Removing elements one after another leaves the part of the graph that they all spare. -/
theorem removeAll_eq (h : g.Reachable) (l : List Value) : Graph.removeAll l g = g.without l := by
  induction l generalizing g with
  | nil => exact (h.consistent.without_eq_self (fun _ => rfl) fun _ _ _ => List.not_mem_nil).symm
  | cons x l ih =>
    calc Graph.removeAll (x :: l) g
        = (g.remove x).without l := ih (h.remove x)
      _ = (g.without [x]).without l := by rw [h.consistent.remove_eq]
      _ = g.without (x :: l) := g.without_without [x] l

theorem removeAll_congr (h : g.Reachable) {l l' : List Value} (hmem : ∀ x, x ∈ l ↔ x ∈ l') :
    Graph.removeAll l g = Graph.removeAll l' g := by
  rw [h.removeAll_eq, h.removeAll_eq, g.without_congr hmem]

end Reachable

theorem map_recordsEnding_filter (edges : OrderedMap EdgeId EdgeRecord)
    (p : EdgeId → EdgeRecord → Bool) (ends : EdgeRecord → VertexId) (labels : List String)
    (v : VertexId) : (recordsEnding (edges.filter p) ends labels v).map (·.1) =
      ((recordsEnding edges ends labels v).map (·.1)).filter (edges.filter p).contains := by
  rw [List.filter_map, recordsEnding, recordsEnding, OrderedMap.filter, List.filter_filter,
    List.filter_filter]
  congr 1
  apply List.filter_congr
  rintro ⟨e, r⟩ hmem
  have hr : edges.get? e = some r := OrderedMap.get?_eq_some_iff.2 hmem
  have hp : (edges.filter p).contains e = p e r := OrderedMap.contains_filter hr
  rw [Bool.and_comm, ← hp]
  rfl

/-- Of the edges at a vertex those stay that are still there, in their order. -/
theorem incident_without {g : Graph} (h : g.Reachable) (l : List Value) (v : VertexId) (d : Direction)
    (labels : List String) : (g.without l).incident v d labels =
      (g.incident v d labels).filter (g.without l).edges.contains := by
  have hg := h.consistent
  have hrest : (g.without l).Consistent := h.removeAll_eq l ▸ (h.removeAll l).consistent
  have houtward : (g.without l).incident v .outward labels =
      (g.incident v .outward labels).filter (g.without l).edges.contains := by
    rw [hrest.incident_outward, hg.incident_outward]
    exact map_recordsEnding_filter g.edges _ _ labels v
  have hinward : (g.without l).incident v .inward labels =
      (g.incident v .inward labels).filter (g.without l).edges.contains := by
    rw [hrest.incident_inward, hg.incident_inward]
    exact map_recordsEnding_filter g.edges _ _ labels v
  cases d with
  | outward => exact houtward
  | inward => exact hinward
  | both => rw [incident_both, incident_both, List.filter_append, houtward, hinward]

/-- Removal leaves the induced subgraph, in any order.  In every graph that was built by the operations,
and for every list of elements, whether they exist or not and however often they are listed: removing them
one after another leaves the vertices that are not listed and the edges that are not listed and whose two
ends are left, all as they were and in their old order, and at every vertex those of its edges that are
left, in their old order.  A rearranged list leaves the same graph, and so does the list without its
repetitions. -/
theorem removeAll_induces {g : Graph} (h : g.Reachable) (l : List Value) :
    let rest := removeAll l g
    rest.vertices.entries = g.vertices.entries.filter (fun p => .vertex p.1 ∉ l) ∧
      rest.edges.entries = g.edges.entries.filter (fun p => .edge p.1 ∉ l ∧
        rest.vertices.contains p.2.tail ∧ rest.vertices.contains p.2.head) ∧
      (∀ v d labels, rest.incident v d labels =
        (g.incident v d labels).filter rest.edges.contains) ∧
      (∀ l', l'.Perm l → removeAll l' g = rest) ∧ removeAll l.dedup g = rest := by
  intro rest
  have hrest : rest = g.without l := h.removeAll_eq l
  have hleft {v : VertexId} (hv : g.vertices.contains v) : rest.vertices.contains v = spares l v := by
    obtain ⟨r, hr⟩ := Option.isSome_iff_exists.1 hv
    rw [hrest]
    exact OrderedMap.contains_filter hr
  refine ⟨by rw [hrest]; rfl, ?_, ?_, ?_, ?_⟩
  · have hedges : rest.edges.entries = g.edges.entries.filter fun p => sparesEdge l p.1 p.2 := by
      rw [hrest]
      rfl
    rw [hedges]
    apply List.filter_congr
    rintro ⟨e, r⟩ hmem
    have hr : g.edges.get? e = some r := OrderedMap.get?_eq_some_iff.2 hmem
    rw [hleft (h.consistent.tail hr), hleft (h.consistent.head hr), sparesEdge]
    simp only [Bool.decide_and, Bool.decide_eq_true]
  · rw [hrest]
    exact incident_without h l
  · exact fun l' hperm => h.removeAll_congr fun x => hperm.mem_iff
  · exact h.removeAll_congr fun x => List.mem_dedup

/-- A vertex goes with its loop and its other edges, before or after an edge that is listed by itself; a
vertex that is not there makes no difference. -/
theorem removeAll_in_either_order :
    let calls : List Call := [.addVertex "person", .addVertex "person", .addVertex "software",
      .addEdge ⟨1⟩ "knows" ⟨2⟩, .addEdge ⟨2⟩ "knows" ⟨2⟩, .addEdge ⟨1⟩ "created" ⟨3⟩,
      .addEdge ⟨1⟩ "likes" ⟨3⟩, .addEdge ⟨3⟩ "names" ⟨2⟩]
    let g := performAll calls .empty
    let l : List Value := [.vertex ⟨2⟩, .edge ⟨6⟩, .vertex ⟨9⟩, .vertex ⟨2⟩]
    g.Reachable ∧ (removeAll l g).edgeIds = [⟨7⟩] ∧
      removeAll [.edge ⟨6⟩, .vertex ⟨2⟩, .vertex ⟨2⟩, .vertex ⟨9⟩] g = removeAll l g := by
  intro calls g l
  have hg : g.Reachable := Reachable.empty.performAll calls
  obtain ⟨-, -, -, hperm, -⟩ := removeAll_induces hg l
  exact ⟨hg, by decide, hperm _ (by decide)⟩

end Graph

end GraphTraversal
