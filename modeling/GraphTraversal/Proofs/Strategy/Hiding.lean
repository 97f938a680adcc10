import Mathlib.Data.List.Permutation
import GraphTraversal.Proofs.Strategy.Optimization
import GraphTraversal.Proofs.Strategy.View
import GraphTraversal.Proofs.Traversal.Building

/-! # Hiding elements

The filters that are put after the steps make a pipeline deliver, in the whole graph, what its own steps
deliver in the restricted graph.  Each step is compared with the segment it becomes; the children are
compared by induction over the tree.
-/

namespace GraphTraversal

/-! ## Criteria -/

structure Judges (criterion : Option Pipeline) (g : Graph) (l : List Value) : Prop where
  readOnly : ∀ c ∈ criterion, c.ReadOnly
  succeeds : ∀ c ∈ criterion, ∀ v ∈ l, ∃ found, (c.first c.machine v g).result = .ok found

theorem Judges.subset {criterion : Option Pipeline} {g : Graph} {l l' : List Value}
    (h : Judges criterion g l) (hl : ∀ v ∈ l', v ∈ l) : Judges criterion g l' :=
  ⟨h.readOnly, fun c hc v hv => h.succeeds c hc v (hl v hv)⟩

theorem Judges.none (g : Graph) (l : List Value) : Judges .none g l where
  readOnly _ hc := by cases hc
  succeeds _ hc := by cases hc

/-! ## Segments -/

def Graph.elements (g : Graph) : Produces → List Value
  | .vertices => g.vertexIds.map .vertex
  | .edges => g.edgeIds.map .edge
  | .other => []

section Segments

variable {vertices edges : Option Pipeline} {g : Graph} (hg : g.Consistent)
  (hv : Judges vertices g (g.elements .vertices)) (he : Judges edges g (g.elements .edges))

include hg hv he

end Segments

/-! ## Whole pipelines -/

section Levels

variable {vertices edges : Option Pipeline} {g : Graph}

variable (hg : g.Consistent) (hv : Judges vertices g (g.elements .vertices))
  (he : Judges edges g (g.elements .edges))

include hg hv he

end Levels

/-! ## The set of strategies -/

def Criterion.ofLabel (text : String) : Criterion :=
  (Traversal.start.hasLabel [.literal text]).criterion

theorem Criterion.readOnly_ofLabel (text : String) : (Criterion.ofLabel text).pipeline.ReadOnly := by
  apply Pipeline.everywhere_iff.2
  intro s hs
  rw [List.mem_singleton.1 hs]
  exact Step.readOnly_of_isPlain ⟨rfl, fun c hc => by cases hc⟩

end GraphTraversal
