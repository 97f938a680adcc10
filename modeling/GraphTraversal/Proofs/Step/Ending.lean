import GraphTraversal.Proofs.Run.Turns
import GraphTraversal.Proofs.Step.Demand

/-! # Every run ends and stays ended

A pull comes to an end, whatever its steps do to the graph that others of them read.  A run brings
finitely many results, and once it has brought none it never does anything again.  What a pull can still
do is break off the program, in a sort or at a full counter, but never without a reason.
-/

namespace GraphTraversal

namespace Step

/-! ## What breaks off a pull -/

theorem leaf_justified (m : Machine Step) {s : Step} (hs : s.isBranching = false) {v : Value} {g : Graph}
    {e : Error} (h : (s.expandWith m v g).result = .error e) : e.Justified := by
  cases s with
  | filter | and | «repeat» | choose | groupCount | project | order => cases hs
  | adjacent | incident | endpoint | property =>
    simp only [expandWith] at h
    split at h <;> cases h
    trivial
  | id =>
    cases v with
    | vertex | edge =>
      simp only [expandWith, Value.elementId] at h
      split at h <;> cases h
      trivial
    | _ => cases h
  | addVertex text =>
    simp only [expandWith] at h
    split at h
    · cases h
      exact of_decide_eq_true (p := 2 ^ 64 ≤ g.lastId + 1) ‹g.isFull = true›
    · cases h
  | _ => cases h

/-- Whatever fails in a machine has reason for it. -/
theorem machine_justified (n : Nat) :
    Machine.Agree (machine n) (machine n) (fun e _ => e.Justified) Eq fun _ => True := by
  induction n with
  | zero =>
    exact ⟨fun h => h ▸ rfl, fun h _ _ _ => ⟨.ok [], h, rfl, trivial⟩,
      fun h _ _ _ _ => ⟨.ok [], h, rfl, trivial⟩⟩
  | succ n ih =>
    have hsteps (p : Pipeline) : List.Forall₂ Eq p.steps p.steps := List.forall₂_same.2 fun _ _ => rfl
    have hchildren :
        ChildrenAgree (machine n) (machine n) (fun e _ => e.Justified) Eq fun _ => True := by
      constructor
      · rintro p _ rfl v g -
        exact ⟨(firstResult_agree ih (hsteps p) v (g := g) trivial).result, rfl, rfl, trivial⟩
      · rintro p _ rfl v g -
        exact ⟨(allResults_agree ih (hsteps p) v (g := g) trivial).result, rfl, rfl, trivial⟩
    constructor
    · rintro s _ rfl
      rfl
    · rintro s _ rfl v g -
      refine ⟨?_, rfl, rfl, trivial⟩
      cases hs : s.isBranching with
      | true =>
        exact (expandWith_agree hchildren (fun _ h => h) (related_self hs fun _ _ => rfl)
          (fun _ _ _ _ _ => trivial) v (g := g) trivial).result
      | false => exact .self fun e he => leaf_justified _ hs he
    · rintro s _ rfl hgather l g -
      refine ⟨?_, rfl, rfl, trivial⟩
      have hbarrier := isBarrier_of_gathering hgather
      cases hs : s.isBranching with
      | true =>
        exact (releaseWith_agree hchildren (fun _ h => h) (related_self hs fun _ _ => rfl) l (g := g)
          trivial hbarrier).result
      | false =>
        obtain rfl := eq_count_of_isBarrier hs hbarrier
        exact .ok _

theorem pull_justified (height : Nat) (steps : List Step) (flow : Flow) (g : Graph) {e : Error}
    (h : (flow.pull (machine height) steps g).result = some (.error e)) : e.Justified := by
  have hsteps : List.Forall₂ Eq steps steps := List.forall₂_same.2 fun _ _ => rfl
  have hresult := (pull_agree (machine_justified height) hsteps flow (g := g) trivial).result
  rw [h] at hresult
  cases hresult with
  | some hresult =>
    cases hresult with
    | error he => exact he

/-! ## The end -/

/-- A run that has brought nothing stands still. -/
theorem producer_of_none {s : List Step × Flow} {g : Graph} (hnone : (producer s g).result = none)
    (g' : Graph) :
    producer (producer s g).state g' = ⟨none, (producer s g).state, g'⟩ ∧
      (producer s g).state.2.evaluations (machine (heights (producer s g).state.1))
        (producer s g).state.1 g' = 0 := by
  obtain ⟨c, hend, hstate⟩ := producer_atEnd (machine_keeps_kind (heights s.1)) hnone
  have hstate : (producer s g).state = ofCells c := hstate
  rw [hstate]
  exact ⟨hend.producer g', hend.evaluations g'⟩

theorem producer_ends (graphs : Nat → Graph) (steps : List Step) (seeds : List Value) :
    ∃ n, producer.Ends graphs (steps, .start seeds steps.length) n := by
  obtain ⟨n, hbefore, hnone⟩ := exists_ends (machine_keeps_kind (heights steps)) graphs steps seeds
  have hdraw (k : Nat) := (producer_agree (heights steps) (heights steps)).draw graphs
    (SameRun.refl _ le_rfl (.start seeds steps.length)) k
  exact ⟨n, fun k hk => by rw [hdraw]; exact hbefore k hk, (hdraw n).trans hnone⟩

/-- Every run ends and stays ended, whatever its steps are and whatever becomes of the graph.

Each single pull, on the steps of a run or of a child at any depth, is over after finitely many turns and
in exactly one way.  It breaks off the program only if a sort has met more than twenty values, among them
two integers and a float that both of them round to, or if there is no id left for a vertex.  Pulls that
come one after another on any graphs, those that the run itself leaves among them, bring finitely many
results; after the first that brings nothing no pull brings anything, changes the graph or the run, or
evaluates a step. -/
theorem run_ends_for_good (steps : List Step) (seeds : List Value) :
    (∀ height flow g, ∃ d, Pulled (machine height) (cells steps flow.stages, flow.source) g d ∧
        (∀ d', Pulled (machine height) (cells steps flow.stages, flow.source) g d' → d' = d) ∧
          (machine height).producer (steps, flow) g = ⟨d.result, ofCells d.state, d.graph⟩ ∧
            ∀ cause, d.result = some (.error (.panic cause)) → cause.Justified) ∧
      ∀ graphs, ∃ n s, producer.Ends graphs (steps, .start seeds steps.length) n ∧
        (∀ k, n < k → producer.draw graphs (steps, .start seeds steps.length) k = ⟨none, s, graphs k⟩) ∧
          ∀ g, s.2.evaluations (machine (heights s.1)) s.1 g = 0 := by
  constructor
  · intro height flow g
    have hm := machine_keeps_kind height
    exact ⟨_, pulled hm (cells steps flow.stages, flow.source) g,
      fun d' h => (h.eq_draw hm).symm, rfl, fun _ => pull_justified height steps flow g⟩
  · intro graphs
    obtain ⟨n, hends⟩ := producer_ends graphs steps seeds
    obtain ⟨s, hlast⟩ := producer.draw_last graphs (steps, .start seeds steps.length) n
    have hnone := hends.2
    rw [hlast] at hnone
    refine ⟨n, _, hends, fun k hk => ?_, fun g => (producer_of_none hnone g).2⟩
    obtain ⟨k, rfl⟩ := Nat.exists_eq_add_of_lt hk
    rw [show n + k + 1 = n + 1 + k by omega, producer.draw_after, hlast,
      producer.draw_of_fixed fun g => (producer_of_none hnone g).1]

/-- The two integers round to the float and so compare equal to it, but not to each other.  The merge of
the runs that a sort finds here has taken values beyond the end of one of them when it is done. -/
theorem sort_breaks_off :
    let float : Value := .float ⟨0x4340000000000000⟩
    let seeds : List Value := [.integer 9007199254740994] ++
      List.replicate 10 (.integer 9007199254740993) ++ [float] ++
        List.replicate 10 (.integer 9007199254740992)
    (producer ([.order []], .start seeds 1) .empty).result =
      some (.error (.panic (.disorder seeds))) := by
  decide +kernel

end Step

end GraphTraversal
