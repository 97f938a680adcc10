import GraphTraversal.Proofs.Step.Acts

/-! # Pulls and streams

Pulling results out of a pipeline one at a time, with the steps changing under way, brings the elements
of a list that is made step by step from the seeds.  The list says nothing of buffers, counters or
machines.
-/

namespace GraphTraversal

/-- The result of a pull that comes after `k` others, each with the machine for the steps as they
stand. -/
def Pipeline.nth (M : Nat → Machine Step) : Pipeline → Flow → Graph → Nat →
    Option (Except Error Value)
  | p, flow, g, 0 => (flow.pull (M p.height) p.steps g).result
  | p, flow, g, k + 1 =>
    let o := flow.pull (M p.height) p.steps g
    nth M { p with steps := o.steps } o.flow o.graph k

def Step.stream (g : Graph) (s : Step) (l : Results) : Results :=
  match s.kind with
  | .expanding => Results.spread (fun v => (s.expand v g).result) l
  | .limiting quota => Results.upTo quota l
  | .gathering => Results.gather (fun vs => (s.release vs g).result) l

/-- What the steps of a pipeline make of the seeds, one step after another. -/
def Pipeline.stream (g : Graph) (p : Pipeline) (seeds : List Value) : Results :=
  p.steps.foldl (fun l s => s.stream g l) (Results.ofValues seeds)

theorem Pipeline.stream_eq (g : Graph) (p : Pipeline) (seeds : List Value) :
    p.stream g seeds = p.deliver Step.machine g (Results.ofValues seeds) := by
  have h (steps : List Step) (l : Results) : steps.foldl (fun l s => s.stream g l) l =
      Act.applyAll (steps.map (·.actOn Step.machine g)) l := by
    induction steps generalizing l with
    | nil => rfl
    | cons s steps ih => exact ih (s.stream g l)
  exact h p.steps _

section Pulling

variable {M : Nat → Machine Step} (hM : Layered M) {g : Graph}

include hM

/-- Steps that act as the acts of the cells deliver, pull by pull, what the cells have left. -/
theorem Pipeline.nth_eq_remaining {p : Pipeline} {acts : List Act}
    (h : List.Forall₂ (Step.ActsAs M g) p.steps acts) (flow : Flow) (k : Nat) :
    p.nth M flow g k = (remaining (cells acts flow.stages) flow.source)[k]? := by
  have hlayer {p : Pipeline} {acts : List Act} (h : List.Forall₂ (Step.ActsAs M g) p.steps acts) :=
    (List.forall₂_and_left _ _).2 ⟨Pipeline.height_le_iff.1 (le_refl p.height), h⟩
  have hrel {r r' : Option (Except Error Value)} (h : Option.Rel (EqUpTo Eq) r r') : r = r' := by
    cases h with
    | some h => rw [eqUpTo_iff_eq.1 h]
    | none => rfl
  induction k generalizing p acts flow with
  | zero =>
    obtain ⟨hresult, -, -, -, -⟩ := pull_agree hM.acts (hlayer h) flow rfl
    obtain ⟨hhead, -, -⟩ := pull_acts acts flow g rfl rfl
    rw [← List.head?_eq_getElem?, ← hhead]
    exact hrel hresult
  | succ k ih =>
    obtain ⟨-, hsteps, hflow, -, hgraph⟩ := pull_agree hM.acts (hlayer h) flow rfl
    obtain ⟨-, htail, -⟩ := pull_acts acts flow g rfl rfl
    rw [Pipeline.nth, hgraph, ih (hsteps.imp fun _ _ hx => hx.2), hflow, htail, List.getElem?_tail]

/-- The results of a read-only pipeline, pull by pull, are those that its steps deliver. -/
theorem Pipeline.nth_eq_deliver {p : Pipeline} (hp : p.ReadOnly) (seeds : List Value) (k : Nat) :
    p.nth M (.start seeds p.steps.length) g k = (p.deliver M g (Results.ofValues seeds))[k]? := by
  rw [Pipeline.nth_eq_remaining hM (p.actsAs_acts hp), Pipeline.deliver, ← remaining_start, List.length_map]
  rfl

end Pulling

/-- Pulling results out of a read-only pipeline until there is none refines the stream: the `k`-th pull
brings the `k`-th element, whatever barriers, limits and errors are on the way. -/
theorem Pipeline.nth_eq_stream (p : Pipeline) (hp : p.ReadOnly) (g : Graph) (seeds : List Value)
    (k : Nat) :
    p.nth Step.machine (.start seeds p.steps.length) g k = (p.stream g seeds)[k]? := by
  rw [p.nth_eq_deliver Step.machine_layered hp, p.stream_eq]

/-- A barrier hands on the error of a failing input first, and then what it made of the others. -/
theorem Pipeline.nth_error_before_count :
    let p : Pipeline := { steps := [.identity, .adjacent .outward [], .count] }
    let flow := Flow.start [.vertex ⟨1⟩, .string "lop", .vertex ⟨2⟩] p.steps.length
    p.ReadOnly ∧
      p.nth Step.machine flow .empty 0 =
        some (.error (.execution (.expectsVertex "adjacent" "string"))) ∧
      p.nth Step.machine flow .empty 1 = some (.ok (.integer 0)) ∧
      p.nth Step.machine flow .empty 2 = none := by
  intro p flow
  have hread : p.ReadOnly := readOnly_of_isPlain (by decide)
  exact ⟨hread, (nth_eq_stream p hread _ _ 0).trans (by decide),
    (nth_eq_stream p hread _ _ 1).trans (by decide), (nth_eq_stream p hread _ _ 2).trans (by decide)⟩

end GraphTraversal
