import GraphTraversal.Proofs.Graph.Consistency
import GraphTraversal.Proofs.Step.Streams
import GraphTraversal.Proofs.Strategy.Reshaping

/-! # Optimizations keep the results

Dropping identities and fusing a step to an edge with the step to its other end change nothing that a
read-only pipeline delivers, except for the words in which a failed execution is reported.  What holds
of one level is carried to all levels by induction over the tree.
-/

namespace GraphTraversal

/-- The same error, or two failed executions reported in different words. -/
inductive Error.Alike : Error → Error → Prop where
  | refl (e : Error) : Alike e e
  | execution (a b : ExecutionFault) : Alike (.execution a) (.execution b)

instance : Std.Refl Error.Alike := ⟨.refl⟩

instance : IsTrans Error Error.Alike where
  trans a b c h h' := by
    cases h with
    | refl => exact h'
    | execution a b =>
      cases h' with
      | refl => exact .execution a b
      | execution _ c => exact .execution a c

/-- A rewriting of single levels that keeps what read-only pipelines deliver. -/
structure Preserves (g : Graph) (f : Pipeline → Pipeline) : Prop where
  readOnly : ∀ {p : Pipeline}, p.ReadOnly → (f p).ReadOnly
  deliver : ∀ {p : Pipeline}, p.ReadOnly → ∀ l,
    Results.Agree Error.Alike (p.deliver Step.machine g l) ((f p).deliver Step.machine g l)

/-- What a rewriting keeps level by level it keeps when it is applied at every level. -/
theorem Preserves.mapLevels {g : Graph} {f : Pipeline → Pipeline} (hf : Preserves g f) :
    Preserves g (·.mapLevels f) where
  readOnly hp := hp.mapLevels .keepsGraph fun _ => hf.readOnly
  deliver {p} hp l := by
    induction p using Pipeline.induction generalizing l with
    | step p ih =>
      have hsteps := Pipeline.everywhere_iff.1 hp
      have hinner : (⟨p.steps.map (·.mapLevels f), p.mode⟩ : Pipeline).ReadOnly := by
        refine Pipeline.everywhere_iff.2 (List.forall_mem_map.2 fun s hs => ?_)
        apply Step.everywhere_mapLevels .keepsGraph (hsteps s hs)
        intro c hc
        exact ((hsteps s hs).2 c hc).mapLevels .keepsGraph fun _ => hf.readOnly
      have hacts : List.Forall₂ (Act.Agree Error.Alike) (p.steps.map (·.actOn Step.machine g))
          ((p.steps.map (·.mapLevels f)).map (·.actOn Step.machine g)) := by
        rw [List.map_map, List.forall₂_map_left_iff, List.forall₂_map_right_iff, List.forall₂_same]
        intro s hs
        change Act.Agree Error.Alike (s.actOn Step.machine g) ((s.mapLevels f).actOn Step.machine g)
        cases hb : s.isBranching with
        | false =>
          rw [s.mapLevels_leaf f hb]
          exact .refl _
        | true =>
          cases hi : s.isInjected with
          | true =>
            rw [s.mapLevels_injected f hi]
            exact .refl _
          | false =>
            refine Step.actOn_agree_of_related Step.machine_layered Step.machine_layered
              ((s.related_mapLevels f hb hi).imp ?_) (hsteps s hs).1.lambda
            rintro c hc _ - rfl
            have hc' := (hsteps s hs).2 c hc
            exact ⟨hc', hc'.mapLevels .keepsGraph fun _ => hf.readOnly, fun v => ih s hs c hc hc' _⟩
      rw [p.mapLevels_eq]
      refine Results.agree_trans ?_ (hf.deliver hinner l)
      exact Act.applyAll_agree hacts (Results.agree_refl l)

/-! ## Identities -/

def Graph.acquaintance : Graph :=
  (((Graph.empty.addVertex "person").2.addVertex "person").2.addEdge ⟨1⟩ "knows" ⟨2⟩).2

end GraphTraversal
