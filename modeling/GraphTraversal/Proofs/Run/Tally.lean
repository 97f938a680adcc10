import Mathlib.Algebra.GroupWithZero.Nat
import GraphTraversal.Proofs.Run.Agreement
import GraphTraversal.Proofs.Run.Persistence

/-! # Counting evaluations

Each step may keep a tally of how often it has been evaluated, which changes nothing else.  A tally that
stays as it is says that nothing was evaluated.
-/

namespace GraphTraversal

variable {σ τ : Type}

def Machine.tallied (m : Machine σ) : Machine (σ × Nat) where
  kind x := m.kind x.1
  expand x v g :=
    let o := m.expand x.1 v g
    ⟨o.result, (o.state, x.2 + 1), o.graph⟩
  release x l g :=
    let o := m.release x.1 l g
    ⟨o.result, (o.state, x.2 + 1), o.graph⟩

def untallied (steps : List σ) : List (σ × Nat) := steps.map (·, 0)

/-- Counting changes nothing else. -/
theorem Machine.tallied_agree (m : Machine σ) :
    m.tallied.Agree m Eq (fun x s => x.1 = s) fun _ => True := by
  constructor
  · rintro ⟨s, k⟩ _ rfl
    rfl
  · rintro ⟨s, k⟩ _ rfl v g -
    exact ⟨.refl _, rfl, rfl, trivial⟩
  · rintro ⟨s, k⟩ _ rfl - l g -
    exact ⟨.refl _, rfl, rfl, trivial⟩

theorem Machine.Keeps.tallied {m : Machine σ} {norm : σ → τ} (hm : m.Keeps norm) :
    m.tallied.Keeps fun x => norm x.1 :=
  ⟨fun x v g => hm.expand x.1 v g, fun x l g => hm.release x.1 l g⟩

def Flow.evaluations (m : Machine σ) (steps : List σ) (flow : Flow) (g : Graph) : Nat :=
  ((flow.pull m.tallied (untallied steps) g).steps.map (·.2)).sum

theorem untallied_agree (steps : List σ) :
    List.Forall₂ (fun (x : σ × Nat) s => x.1 = s) (untallied steps) steps := by
  rw [untallied, List.forall₂_map_left_iff]
  exact List.forall₂_same.2 fun _ _ => rfl

theorem pull_tallied (m : Machine σ) (steps : List σ) (flow : Flow) (g : Graph) :
    Pull.Agree Eq (fun x s => x.1 = s) (fun _ => True) (flow.pull m.tallied (untallied steps) g)
      (flow.pull m steps g) :=
  pull_agree m.tallied_agree (untallied_agree steps) flow trivial

end GraphTraversal
