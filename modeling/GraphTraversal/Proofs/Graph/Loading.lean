import Mathlib.Data.List.Nodup
import GraphTraversal.Graph.Reader
import GraphTraversal.Proofs.Data.Except
import GraphTraversal.Proofs.Graph.Adjacency

/-! # Loading documents

Loading adds the elements of a document one by one, and each addition may be refused.  Which documents
load can be said of the document as a whole, and so can the graph that comes out: it has the elements of
the document in their order, each with its properties, and nothing else.
-/

namespace GraphTraversal

/-! ## Values -/

namespace DocumentValue

inductive ContainsObject : DocumentValue → Prop where
  | here : ContainsObject .object
  | within {items : List DocumentValue} {d : DocumentValue} (hd : d ∈ items) (h : ContainsObject d) :
    ContainsObject (.array items)

mutual

/-- What a value without objects stands for.  A whole number that is no signed word is a float. -/
def meaning : DocumentValue → Value
  | .null | .object => .null
  | .boolean b => .boolean b
  | .integer n =>
    if Int64.minValue.toInt ≤ n ∧ n ≤ Int64.maxValue.toInt then .integer (Int64.ofInt n)
    else .float (Binary64.ofInt n)
  | .float x => .float x
  | .string s => .string s
  | .array items => .list (meanings items)

def meanings : List DocumentValue → List Value
  | [] => []
  | d :: l => d.meaning :: meanings l

end

mutual

theorem toValue_eq : (d : DocumentValue) → ¬d.ContainsObject → d.toValue = .ok d.meaning
  | .null, _ | .boolean _, _ | .float _, _ | .string _, _ => rfl
  | .integer n, _ => by
    rw [toValue, meaning]
    split <;> rfl
  | .array items, h => by
    rw [toValue, toValues_eq items fun d hd hc => h (.within hd hc)]
    rfl
  | .object, h => absurd .here h

theorem toValues_eq : (l : List DocumentValue) → (∀ d ∈ l, ¬d.ContainsObject) →
    toValues l = .ok (meanings l)
  | [], _ => rfl
  | d :: l, h => by
    rw [toValues, toValue_eq d (h d List.mem_cons_self),
      toValues_eq l fun d hd => h d (List.mem_cons_of_mem _ hd)]
    rfl

end

theorem toValue_of_mem {l : List DocumentValue} {vs : List Value} (h : toValues l = .ok vs)
    {d : DocumentValue} (hd : d ∈ l) : ∃ v, d.toValue = .ok v := by
  induction l generalizing vs with
  | nil => cases hd
  | cons d' l ih =>
    rw [toValues] at h
    obtain ⟨v, hv, h⟩ := Except.exists_of_bind h
    obtain ⟨ws, hws, -⟩ := Except.exists_of_bind h
    rcases List.mem_cons.1 hd with rfl | hd
    · exact ⟨v, hv⟩
    · exact ih hws hd

theorem not_containsObject {d : DocumentValue} {v : Value} (h : d.toValue = .ok v) :
    ¬d.ContainsObject := by
  intro hd
  induction hd generalizing v with
  | here => cases h
  | within hmem _ ih =>
    rw [toValue] at h
    obtain ⟨vs, hvs, -⟩ := Except.exists_of_map h
    obtain ⟨w, hw⟩ := toValue_of_mem hvs hmem
    exact ih hw

/-- A value of a document is a value of the graph unless it contains an object. -/
theorem toValue_eq_ok_iff {d : DocumentValue} {v : Value} :
    d.toValue = .ok v ↔ ¬d.ContainsObject ∧ d.meaning = v := by
  constructor
  · intro h
    have hd := not_containsObject h
    exact ⟨hd, Except.ok.inj ((toValue_eq d hd).symm.trans h)⟩
  · rintro ⟨hd, rfl⟩
    exact toValue_eq d hd

end DocumentValue

def Plain (properties : List (String × DocumentValue)) : Prop :=
  ∀ p ∈ properties, ¬p.2.ContainsObject

def meaningsOf (properties : List (String × DocumentValue)) : List (String × Value) :=
  properties.map fun p => (p.1, p.2.meaning)

def VertexEntry.record (e : VertexEntry) : VertexRecord where
  label := e.label
  properties := .ofList (meaningsOf e.properties)

def EdgeEntry.record (e : EdgeEntry) : EdgeRecord where
  label := e.label
  tail := ⟨e.tail⟩
  head := ⟨e.head⟩
  properties := .ofList (meaningsOf e.properties)

/-! ## Properties -/

namespace Graph

def assignAll (element : Value) (l : List (String × Value)) (g : Graph) : Graph :=
  performAll (l.map fun p => .setProperty element p.1 p.2) g

theorem setProperties_eq_ok_iff {element : Value} {l : List (String × DocumentValue)} {g g' : Graph} :
    setProperties element l g = .ok g' ↔ Plain l ∧ assignAll element (meaningsOf l) g = g' := by
  induction l generalizing g with
  | nil => simp [setProperties, Plain, meaningsOf, assignAll, performAll]
  | cons p l ih =>
    obtain ⟨key, d⟩ := p
    rw [setProperties, Except.bind_eq_ok_iff]
    simp only [DocumentValue.toValue_eq_ok_iff, ih, Plain, List.forall_mem_cons]
    constructor
    · rintro ⟨v, ⟨hd, rfl⟩, hl, rfl⟩
      exact ⟨⟨hd, hl⟩, rfl⟩
    · rintro ⟨⟨hd, hl⟩, rfl⟩
      exact ⟨_, ⟨hd, rfl⟩, hl, rfl⟩

theorem assignAll_vertex {g : Graph} {v : VertexId} (hv : g.vertices.contains v)
    (l : List (String × Value)) : assignAll (.vertex v) l g = { g with
      vertices := g.vertices.modify v fun r => { r with properties := r.properties.insertAll l } } := by
  induction l generalizing g with
  | nil =>
    have hself (r : VertexRecord) : { r with properties := r.properties.insertAll [] } = r := rfl
    rw [OrderedMap.modify_eq_self hself]
    rfl
  | cons p l ih =>
    have hset : (g.setProperty? (.vertex v) p.1 p.2).getD g = { g with
        vertices := g.vertices.modify v fun r =>
          { r with properties := r.properties.insert p.1 p.2 } } := by
      rw [setProperty?, if_pos hv, Option.getD_some]
    change assignAll (.vertex v) l ((g.setProperty? (.vertex v) p.1 p.2).getD g) = _
    rw [hset, ih (OrderedMap.contains_modify.trans hv), OrderedMap.modify_modify]
    rfl

theorem assignAll_edge {g : Graph} {e : EdgeId} (he : g.edges.contains e)
    (l : List (String × Value)) : assignAll (.edge e) l g = { g with
      edges := g.edges.modify e fun r => { r with properties := r.properties.insertAll l } } := by
  induction l generalizing g with
  | nil =>
    have hself (r : EdgeRecord) : { r with properties := r.properties.insertAll [] } = r := rfl
    rw [OrderedMap.modify_eq_self hself]
    rfl
  | cons p l ih =>
    have hset : (g.setProperty? (.edge e) p.1 p.2).getD g = { g with
        edges := g.edges.modify e fun r =>
          { r with properties := r.properties.insert p.1 p.2 } } := by
      rw [setProperty?, if_pos he, Option.getD_some]
    change assignAll (.edge e) l ((g.setProperty? (.edge e) p.1 p.2).getD g) = _
    rw [hset, ih (OrderedMap.contains_modify.trans he), OrderedMap.modify_modify]
    rfl

/-! ## One element -/

def withVertex (g : Graph) (e : VertexEntry) : Graph :=
  { g with vertices := g.vertices.insert ⟨e.id⟩ e.record, lastId := max g.lastId e.id }

def withEdge (g : Graph) (e : EdgeEntry) : Graph :=
  { g with
    edges := g.edges.insert ⟨e.id⟩ e.record
    leaving := attach g.leaving ⟨e.tail⟩ ⟨e.id⟩
    entering := attach g.entering ⟨e.head⟩ ⟨e.id⟩
    lastId := max g.lastId e.id }

theorem loadVertex_eq_ok_iff {g g' : Graph} {e : VertexEntry} : g.loadVertex e = .ok g' ↔
    g.vertices.contains ⟨e.id⟩ = false ∧ Plain e.properties ∧ g.withVertex e = g' := by
  rw [loadVertex, Except.bind_eq_ok_iff, addVertexWithId]
  cases hid : g.vertices.contains ⟨e.id⟩ with
  | true => simp
  | false =>
    have hthere : (g.vertices.insert ⟨e.id⟩ { label := e.label }).contains ⟨e.id⟩ :=
      OrderedMap.contains_insert_iff.2 (.inl rfl)
    simp only [Bool.false_eq_true, if_false, Except.ok.injEq, exists_eq_left', true_and,
      setProperties_eq_ok_iff]
    rw [assignAll_vertex hthere, OrderedMap.modify_insert hid]
    rfl

theorem loadEdge_eq_ok_iff {g g' : Graph} {e : EdgeEntry} : g.loadEdge e = .ok g' ↔
    g.edges.contains ⟨e.id⟩ = false ∧
      (g.vertices.contains ⟨e.tail⟩ ∧ g.vertices.contains ⟨e.head⟩ ∧ Plain e.properties) ∧
      g.withEdge e = g' := by
  rw [loadEdge, Except.bind_eq_ok_iff, addEdgeWithId]
  cases htail : g.vertices.contains ⟨e.tail⟩ with
  | false => simp
  | true =>
    cases hhead : g.vertices.contains ⟨e.head⟩ with
    | false => simp
    | true =>
      cases hid : g.edges.contains ⟨e.id⟩ with
      | true => simp
      | false =>
        have hthere (r : EdgeRecord) : (g.edges.insert ⟨e.id⟩ r).contains ⟨e.id⟩ :=
          OrderedMap.contains_insert_iff.2 (.inl rfl)
        simp only [Bool.false_eq_true, not_true_eq_false, if_false, Except.ok.injEq,
          exists_eq_left', true_and, setProperties_eq_ok_iff]
        rw [assignAll_edge (hthere _), OrderedMap.modify_insert hid]
        rfl

/-! ## Many elements -/

/-- What a loading step does: it appends the entry of what it loads to those that are held.  It is refused
if the key is taken or if the element itself is not good, which other elements of its kind do not
change. -/
structure Appends {σ α κ ρ : Type} (load : σ → α → Except Error σ) (held : σ → List (κ × ρ))
    (entry : α → κ × ρ) (good : σ → α → Prop) : Prop where
  exists_iff : ∀ s a, (∃ s', load s a = .ok s') ↔ (entry a).1 ∉ (held s).map (·.1) ∧ good s a
  held_eq : ∀ {s a s'}, load s a = .ok s' → held s' = held s ++ [entry a]
  good_iff : ∀ {s a s'}, load s a = .ok s' → ∀ b, good s' b ↔ good s b

namespace Appends

variable {σ α κ ρ : Type} {load : σ → α → Except Error σ} {held : σ → List (κ × ρ)}
  {entry : α → κ × ρ} {good : σ → α → Prop} (h : Appends load held entry good)

include h

theorem held_foldlM {l : List α} {s s' : σ} (hs : l.foldlM load s = .ok s') :
    held s' = held s ++ l.map entry := by
  induction l generalizing s with
  | nil =>
    cases hs
    exact (List.append_nil _).symm
  | cons a l ih =>
    rw [List.foldlM_cons] at hs
    obtain ⟨t, ht, hs⟩ := Except.exists_of_bind hs
    rw [ih hs, h.held_eq ht, List.append_assoc]
    rfl

/-- A list is loaded if its keys are distinct and free and its elements are good. -/
theorem exists_foldlM_iff (l : List α) (s : σ) : (∃ s', l.foldlM load s = .ok s') ↔
    (l.map fun a => (entry a).1).Nodup ∧ ∀ a ∈ l, (entry a).1 ∉ (held s).map (·.1) ∧ good s a := by
  induction l generalizing s with
  | nil => simp [pure, Except.pure]
  | cons a l ih =>
    have hrest {t : σ} (ht : load s a = .ok t) (b : α) :
        (entry b).1 ∉ (held t).map (·.1) ∧ good t b ↔
          (entry b).1 ≠ (entry a).1 ∧ (entry b).1 ∉ (held s).map (·.1) ∧ good s b := by
      rw [h.held_eq ht, h.good_iff ht]
      simp only [List.map_append, List.map_singleton, List.mem_append, List.mem_singleton, not_or]
      tauto
    simp only [List.foldlM_cons, Except.bind_eq_ok_iff]
    rw [exists_comm]
    simp only [List.map_cons, List.nodup_cons, List.forall_mem_cons]
    constructor
    · rintro ⟨t, s', ht, hs'⟩
      obtain ⟨hnodup, hl⟩ := (ih t).1 ⟨s', hs'⟩
      refine ⟨⟨?_, hnodup⟩, (h.exists_iff s a).1 ⟨t, ht⟩, fun b hb => ((hrest ht b).1 (hl b hb)).2⟩
      intro hmem
      obtain ⟨b, hb, hba⟩ := List.mem_map.1 hmem
      exact ((hrest ht b).1 (hl b hb)).1 hba
    · rintro ⟨⟨hnew, hnodup⟩, ha, hl⟩
      obtain ⟨t, ht⟩ := (h.exists_iff s a).2 ha
      have hne {b : α} (hb : b ∈ l) : (entry b).1 ≠ (entry a).1 := fun hba =>
        hnew (List.mem_map.2 ⟨b, hb, hba⟩)
      obtain ⟨s', hs'⟩ := (ih t).2 ⟨hnodup, fun b hb => (hrest ht b).2 ⟨hne hb, hl b hb⟩⟩
      exact ⟨t, s', ht, hs'⟩

end Appends

theorem appends_loadVertex : Appends loadVertex (·.vertices.entries)
    (fun e => (⟨e.id⟩, e.record)) (fun _ e => Plain e.properties) where
  exists_iff g e := by
    simp only [loadVertex_eq_ok_iff, OrderedMap.contains_eq_false_iff]
    simp
  held_eq {g e g'} h := by
    obtain ⟨hid, -, rfl⟩ := loadVertex_eq_ok_iff.1 h
    exact OrderedMap.entries_insert hid _
  good_iff _ _ := Iff.rfl

theorem appends_loadEdge : Appends loadEdge (·.edges.entries) (fun e => (⟨e.id⟩, e.record))
    (fun g e => g.vertices.contains ⟨e.tail⟩ ∧ g.vertices.contains ⟨e.head⟩ ∧ Plain e.properties) where
  exists_iff g e := by
    simp only [loadEdge_eq_ok_iff, OrderedMap.contains_eq_false_iff]
    simp
  held_eq {g e g'} h := by
    obtain ⟨hid, -, rfl⟩ := loadEdge_eq_ok_iff.1 h
    exact OrderedMap.entries_insert hid _
  good_iff {g e g'} h b := by
    obtain ⟨-, -, rfl⟩ := loadEdge_eq_ok_iff.1 h
    exact Iff.rfl

theorem Reachable.loadVertex {g g' : Graph} (h : g.Reachable) {e : VertexEntry}
    (ok : g.loadVertex e = .ok g') : g'.Reachable := by
  obtain ⟨t, ht, ok⟩ := Except.exists_of_bind ok
  obtain ⟨-, rfl⟩ := setProperties_eq_ok_iff.1 ok
  exact (h.addVertexWithId ht).performAll _

theorem Reachable.loadEdge {g g' : Graph} (h : g.Reachable) {e : EdgeEntry}
    (ok : g.loadEdge e = .ok g') : g'.Reachable := by
  obtain ⟨t, ht, ok⟩ := Except.exists_of_bind ok
  obtain ⟨-, rfl⟩ := setProperties_eq_ok_iff.1 ok
  exact (h.addEdgeWithId ht).performAll _

/-! ## The elements of a document -/

/-- The vertices of a document load if their ids are distinct and their properties have values. -/
theorem exists_loadVertices_iff (l : List VertexEntry) :
    (∃ g, l.foldlM Graph.loadVertex empty = .ok g) ↔
      (l.map (·.id)).Nodup ∧ ∀ e ∈ l, Plain e.properties := by
  have hnone (e : VertexEntry) : (⟨e.id⟩ : VertexId) ∉ empty.vertices.entries.map (·.1) :=
    List.not_mem_nil
  have hids : (l.map (·.id)).Nodup ↔ (l.map fun e => (⟨e.id⟩ : VertexId)).Nodup := by
    rw [← List.nodup_map_iff (f := VertexId.mk) fun _ _ => VertexId.mk.inj, List.map_map]
    rfl
  rw [appends_loadVertex.exists_foldlM_iff, hids]
  simp only [hnone, not_false_eq_true, true_and]

/-- What the vertices of a document leave behind. -/
theorem loadVertices_eq {l : List VertexEntry} {g : Graph}
    (h : l.foldlM Graph.loadVertex empty = .ok g) :
    g.Reachable ∧ g.vertices.entries = l.map (fun e => (⟨e.id⟩, e.record)) ∧ g.edges = ∅ := by
  refine ⟨Except.foldlM_keeps (fun ht ok => ht.loadVertex ok) h .empty,
    appends_loadVertex.held_foldlM h, ?_⟩
  refine Except.foldlM_keeps (P := fun t => t.edges = ∅) (fun {t e t'} ht ok => ?_) h rfl
  obtain ⟨-, -, rfl⟩ := loadVertex_eq_ok_iff.1 ok
  exact ht

/-- The edges of a document load if, besides, they end at vertices of the graph. -/
theorem exists_loadEdges_iff {g : Graph} (hg : g.edges = ∅) (l : List EdgeEntry) :
    (∃ g', l.foldlM Graph.loadEdge g = .ok g') ↔ (l.map (·.id)).Nodup ∧
      ∀ e ∈ l, g.vertices.contains ⟨e.tail⟩ ∧ g.vertices.contains ⟨e.head⟩ ∧ Plain e.properties := by
  have hnone (e : EdgeEntry) : (⟨e.id⟩ : EdgeId) ∉ g.edges.entries.map (·.1) := by
    rw [hg]
    exact List.not_mem_nil
  have hids : (l.map (·.id)).Nodup ↔ (l.map fun e => (⟨e.id⟩ : EdgeId)).Nodup := by
    rw [← List.nodup_map_iff (f := EdgeId.mk) fun _ _ => EdgeId.mk.inj, List.map_map]
    rfl
  rw [appends_loadEdge.exists_foldlM_iff, hids]
  simp only [hnone, not_false_eq_true, true_and]

/-- What the edges of a document leave behind. -/
theorem loadEdges_eq {l : List EdgeEntry} {g g' : Graph} (hg : g.Reachable)
    (h : l.foldlM Graph.loadEdge g = .ok g') :
    g'.Reachable ∧ g'.vertices = g.vertices ∧
      g'.edges.entries = g.edges.entries ++ l.map fun e => (⟨e.id⟩, e.record) := by
  refine ⟨Except.foldlM_keeps (fun ht ok => ht.loadEdge ok) h hg, ?_,
    appends_loadEdge.held_foldlM h⟩
  refine Except.foldlM_keeps (P := fun t => t.vertices = g.vertices) (fun {t e t'} ht ok => ?_) h rfl
  obtain ⟨-, -, rfl⟩ := loadEdge_eq_ok_iff.1 ok
  exact ht

end Graph

/-! ## Documents -/

/-- Ids are distinct among the vertices and among the edges, edges end at listed vertices, and no property
contains an object. -/
structure Document.Loadable (d : Document) : Prop where
  vertexIds : (d.vertices.map (·.id)).Nodup
  edgeIds : (d.edges.map (·.id)).Nodup
  ends : ∀ e ∈ d.edges, e.tail ∈ d.vertices.map (·.id) ∧ e.head ∈ d.vertices.map (·.id)
  vertexValues : ∀ e ∈ d.vertices, Plain e.properties
  edgeValues : ∀ e ∈ d.edges, Plain e.properties

namespace Graph

theorem exists_ofDocument_iff (d : Document) : (∃ g, ofDocument d = .ok g) ↔ d.Loadable := by
  have hcontains {t : Graph} (ht : t.vertices.entries = d.vertices.map fun e => (⟨e.id⟩, e.record))
      (n : Nat) : t.vertices.contains ⟨n⟩ ↔ n ∈ d.vertices.map (·.id) := by
    simp [OrderedMap.contains_iff_of_entries ht]
  simp only [ofDocument, Except.bind_eq_ok_iff]
  constructor
  · rintro ⟨g, t, ht, hg⟩
    obtain ⟨-, hentries, hnone⟩ := loadVertices_eq ht
    obtain ⟨hvertices, hplain⟩ := (exists_loadVertices_iff _).1 ⟨t, ht⟩
    obtain ⟨hedges, hall⟩ := (exists_loadEdges_iff hnone _).1 ⟨g, hg⟩
    simp only [hcontains hentries] at hall
    exact ⟨hvertices, hedges, fun e he => ⟨(hall e he).1, (hall e he).2.1⟩, hplain,
      fun e he => (hall e he).2.2⟩
  · intro h
    obtain ⟨t, ht⟩ := (exists_loadVertices_iff _).2 ⟨h.vertexIds, h.vertexValues⟩
    obtain ⟨-, hentries, hnone⟩ := loadVertices_eq ht
    have hall : ∀ e ∈ d.edges, t.vertices.contains ⟨e.tail⟩ ∧ t.vertices.contains ⟨e.head⟩ ∧
        Plain e.properties := by
      simp only [hcontains hentries]
      exact fun e he => ⟨(h.ends e he).1, (h.ends e he).2, h.edgeValues e he⟩
    obtain ⟨g, hg⟩ := (exists_loadEdges_iff hnone _).2 ⟨h.edgeIds, hall⟩
    exact ⟨g, t, ht, hg⟩

/-- The graph of a document, by its elements. -/
theorem ofDocument_entries {d : Document} {g : Graph} (h : ofDocument d = .ok g) : g.Reachable ∧
    g.vertices.entries = d.vertices.map (fun e => (⟨e.id⟩, e.record)) ∧
      g.edges.entries = d.edges.map fun e => (⟨e.id⟩, e.record) := by
  obtain ⟨t, ht, hg⟩ := Except.exists_of_bind h
  obtain ⟨hreachable, hvertices, hnone⟩ := loadVertices_eq ht
  obtain ⟨hg, hsame, hedges⟩ := loadEdges_eq hreachable hg
  refine ⟨hg, hsame ▸ hvertices, ?_⟩
  rw [hedges, hnone]
  rfl

end Graph

/-! ## What a graph takes over -/

structure VertexEntry.Becomes (e : VertexEntry) (p : VertexId × VertexRecord) : Prop where
  id : p.1.val = e.id
  label : p.2.label = e.label
  properties : p.2.properties.Gathers (meaningsOf e.properties)

structure EdgeEntry.Becomes (e : EdgeEntry) (p : EdgeId × EdgeRecord) : Prop where
  id : p.1.val = e.id
  label : p.2.label = e.label
  tail : p.2.tail.val = e.tail
  head : p.2.head.val = e.head
  properties : p.2.properties.Gathers (meaningsOf e.properties)

/-- The edges of a document with an end at a vertex and a label that is admitted. -/
def Document.edgesEnding (d : Document) (ends : EdgeEntry → Nat) (v : VertexId)
    (labels : List String) : List EdgeId :=
  (d.edges.filter fun e => ends e = v.val && (labels.isEmpty || labels.contains e.label)).map
    fun e => ⟨e.id⟩

def Document.ids (d : Document) : List Nat := d.vertices.map (·.id) ++ d.edges.map (·.id)

/-- A graph has the elements of a document in their order and nothing else, lists the edges at a vertex
in this order, and whatever is called afterwards, its fresh ids are greater than all ids of the
document. -/
structure Graph.Represents (g : Graph) (d : Document) : Prop where
  vertices : List.Forall₂ VertexEntry.Becomes d.vertices g.vertices.entries
  edges : List.Forall₂ EdgeEntry.Becomes d.edges g.edges.entries
  outward : ∀ v labels, g.incident v .outward labels = d.edgesEnding (·.tail) v labels
  inward : ∀ v labels, g.incident v .inward labels = d.edgesEnding (·.head) v labels
  both : ∀ v labels, g.incident v .both labels =
    d.edgesEnding (·.tail) v labels ++ d.edgesEnding (·.head) v labels
  freshVertex : ∀ calls label, ∀ id ∈ d.ids, id < ((performAll calls g).addVertex label).1.val
  freshEdge : ∀ calls tail label head e, ((performAll calls g).addEdge tail label head).1 = .ok e →
    ∀ id ∈ d.ids, id < e.val

namespace Graph

theorem recordsEnding_eq_edgesEnding {d : Document} {g : Graph}
    (h : g.edges.entries = d.edges.map fun e => (⟨e.id⟩, e.record)) {ends : EdgeRecord → VertexId}
    {entryEnds : EdgeEntry → Nat} (hends : ∀ e : EdgeEntry, ends e.record = ⟨entryEnds e⟩)
    (v : VertexId) (labels : List String) :
    (recordsEnding g.edges ends labels v).map (·.1) = d.edgesEnding entryEnds v labels := by
  obtain ⟨v⟩ := v
  rw [recordsEnding, h, List.filter_map, List.map_map, Document.edgesEnding]
  simp only [Function.comp_def, hends, EdgeRecord.isAdmitted, VertexId.mk.injEq]
  rfl

theorem le_lastId_of_mem_ids {d : Document} {g : Graph} (h : ofDocument d = .ok g) {id : Nat}
    (hid : id ∈ d.ids) : id ≤ g.lastId := by
  obtain ⟨hg, hvertices, hedges⟩ := ofDocument_entries h
  rcases List.mem_append.1 hid with hid | hid
  · obtain ⟨e, he, rfl⟩ := List.mem_map.1 hid
    exact hg.counted.vertices ((OrderedMap.contains_iff_of_entries hvertices).2 ⟨e, he, rfl⟩)
  · obtain ⟨e, he, rfl⟩ := List.mem_map.1 hid
    exact hg.counted.edges ((OrderedMap.contains_iff_of_entries hedges).2 ⟨e, he, rfl⟩)

theorem represents_ofDocument {d : Document} {g : Graph} (h : ofDocument d = .ok g) :
    g.Represents d := by
  obtain ⟨hg, hvertices, hedges⟩ := ofDocument_entries h
  have houtward v labels := (hg.consistent.incident_outward v labels).trans
    (recordsEnding_eq_edgesEnding hedges (fun _ => rfl) v labels)
  have hinward v labels := (hg.consistent.incident_inward v labels).trans
    (recordsEnding_eq_edgesEnding hedges (fun _ => rfl) v labels)
  exact {
    vertices := by
      rw [hvertices, List.forall₂_map_right_iff, List.forall₂_same]
      exact fun e _ => ⟨rfl, rfl, OrderedMap.gathers_ofList _⟩
    edges := by
      rw [hedges, List.forall₂_map_right_iff, List.forall₂_same]
      exact fun e _ => ⟨rfl, rfl, rfl, rfl, OrderedMap.gathers_ofList _⟩
    outward := houtward
    inward := hinward
    both := fun v labels => by rw [incident_both, houtward, hinward]
    freshVertex := fun calls label id hid =>
      (le_lastId_of_mem_ids h hid).trans_lt (lt_addVertex calls label g)
    freshEdge := fun calls tail label head e he id hid =>
      (le_lastId_of_mem_ids h hid).trans_lt (lt_addEdge he) }

/-- Loading builds exactly the document or fails.  A document that was read loads if and only if its ids
are distinct, its edges end at listed vertices and no property contains an object at any depth, and the
graph that comes out represents it. -/
theorem ofJson_represents {text : String} {d : Document}
    (h : (Json.Node.read? text).bind (·.document?) = some d) :
    ((∃ g, ofJson text = .ok g) ↔ d.Loadable) ∧ ∀ g, ofJson text = .ok g → g.Represents d := by
  have hload : ofJson text = ofDocument d := by rw [ofJson, h]
  rw [hload]
  exact ⟨exists_ofDocument_iff d, fun g => represents_ofDocument⟩

/-- A key that stands twice keeps its first place and has its last value. -/
theorem ofJson_repeated_key :
    let text := "[[[1,\"a\",[[\"k\",1],[\"j\",null],[\"k\",2]]]],[[5,1,\"to\",1]]]"
    ∃ d g, (Json.Node.read? text).bind (·.document?) = some d ∧ d.Loadable ∧ ofJson text = .ok g ∧
      g.Represents d ∧ g.properties (.vertex ⟨1⟩) = .ofList [("k", .integer 2), ("j", .null)] := by
  intro text
  have hread : ((Json.Node.read? text).bind (·.document?)).isSome = true := by decide +kernel
  obtain ⟨d, hd⟩ := Option.isSome_iff_exists.1 hread
  obtain ⟨hloads, hrepresents⟩ := ofJson_represents hd
  have hproperties : (ofJson text).map (·.properties (.vertex ⟨1⟩)) =
      .ok (.ofList [("k", .integer 2), ("j", .null)]) := by decide +kernel
  obtain ⟨g, hg, hproperties⟩ := Except.exists_of_map hproperties
  exact ⟨d, g, hd, hloads.1 ⟨g, hg⟩, hg, hrepresents g hg, hproperties⟩

end Graph

end GraphTraversal
