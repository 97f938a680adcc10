import GraphTraversal.Proofs.Run.Demand
import GraphTraversal.Proofs.Run.Tally
import GraphTraversal.Proofs.Step.Acts

/-! # Limits stop demand

Steps are drawn from with the machine for their height, which an evaluation does not change.  A limit
among them, whatever stands before it and behind it, keeps the steps before it from being evaluated more
often than its quota takes; at the end of a pipeline it is as good as to stop drawing in time.
-/

namespace GraphTraversal

theorem Pipeline.everywhere_true (p : Pipeline) : p.Everywhere fun _ => True := by
  induction p using Pipeline.induction with
  | step p ih => exact .intro (fun _ _ => trivial) ih

/-- Any step may be evaluated on any graph. -/
theorem Closed.all (M : Nat → Machine Step) : Closed M (fun _ => True) fun _ => True where
  rewound _ _ := ⟨trivial, fun c _ => c.everywhere_true⟩
  graph _ _ _ _ _ _ _ := trivial
  lambda _ _ _ _ _ _ := trivial

namespace Step

theorem machine_keeps_kind (n : Nat) : (machine n).Keeps (machine n).kind := by
  have hkind (s : Step) : (machine n).kind s.rewound = (machine n).kind s := by
    rw [machine_layered.kind, machine_layered.kind, kind_rewound]
  constructor
  · intro s v g
    rw [← hkind, (machine_keeps n).expand, hkind]
  · intro s l g
    rw [← hkind, (machine_keeps n).release, hkind]

theorem heights_of_rewound {l l' : List Step} (h : l.map rewound = l'.map rewound) :
    heights l = heights l' := by
  have hheight (l : List Step) : heights (l.map rewound) = heights l := by
    rw [← rewoundAll_eq]
    exact Pipeline.height_rewound ⟨l, .standard⟩
  rw [← hheight, h, hheight]

/-- Steps with their flow, drawn from with the machine for the steps as they stand. -/
def producer : Producer (List Step × Flow) := fun s g => (machine (heights s.1)).producer s g

/-- The same run, whose steps are drawn from with the machine of their height and with one of height
`k`. -/
structure SameRun (n k : Nat) (s s' : List Step × Flow) : Prop where
  height : heights s.1 = n
  steps : List.Forall₂ (AlikeAt (fun _ => True) n k) s.1 s'.1
  flow : s.2 = s'.2

theorem SameRun.refl (k : Nat) {steps : List Step} (hk : heights steps ≤ k) (flow : Flow) :
    SameRun (heights steps) k (steps, flow) (steps, flow) where
  height := rfl
  steps := List.forall₂_same.2 fun s hs =>
    ⟨rfl, heights_le_iff.1 (Nat.le_refl _) s hs, heights_le_iff.1 hk s hs, trivial,
      fun c _ => c.everywhere_true⟩
  flow := rfl

/-- A machine of a greater height does not make a difference. -/
theorem producer_agree (n k : Nat) : producer.Agree (machine k).producer (SameRun n k) := by
  have hpull {s s' : List Step × Flow} (h : SameRun n k s s') (g : Graph) :
      Pull.Agree Eq (AlikeAt (fun _ => True) n k) (fun _ => True)
        (s.2.pull (machine (heights s.1)) s.1 g) (s'.2.pull (machine k) s'.1 g) := by
    rw [h.height, ← h.flow]
    exact pull_agree (machine_layered.agree (.all machine) n k) h.steps s.2 trivial
  constructor
  · intro s s' h g
    exact eq_of_rel_eqUpTo (hpull h g).result
  · intro s s' h g
    exact (hpull h g).graph
  · intro s s' h g
    refine ⟨?_, (hpull h g).steps, (hpull h g).flow⟩
    exact (heights_of_rewound (pull_keeps (machine_keeps _) s.1 s.2 g)).trans h.height

/-- Steps are drained as their cells are, with the machine of any height that is enough. -/
theorem drains_start_iff {n : Nat} {steps : List Step} (hn : heights steps ≤ n) {seeds : List Value}
    {g g' : Graph} {l : Results} : Drains producer (steps, .start seeds steps.length) g l g' ↔
      Drains (machine n).cellProducer (freshCells steps, seeds) g l g' := by
  rw [drains_iff (producer_agree _ _) (SameRun.refl n hn _),
    drains_iff (machine n).producer_agree (ofCells_fresh steps seeds).symm]

/-- A limit stops demand.  To drain a pipeline that ends in `limit n` is to draw from the steps before
it alone until there have been `n` values or nothing is left, and no further: it brings the same results
and leaves the same graph.  And with whatever steps behind the limit, however often and on whatever
graphs all of them are drawn from: the steps before it stand, with the tallies of their evaluations, as
some draws from them alone leave them, each made before there were `n` values, which brought as many
values as the limit has let through; these are never more than `n`; and when they are `n`, the steps
before the limit stand still. -/
theorem limit_stops_demand (steps : List Step) (n : Nat) (seeds : List Value) :
    (let all := steps ++ [.limit n]
      ∀ g, (∃ l g', Drains producer (all, .start seeds all.length) g l g') ∧
        ∀ l g', Drains producer (all, .start seeds all.length) g l g' ↔
          DrawsValues producer n (steps, .start seeds steps.length) g l g') ∧
    ∀ later : List Step,
      let all := steps ++ .limit n :: later
      let p := (machine (heights all)).tallied.producer
      ∀ answers s, Drawn p (untallied all, .start seeds all.length) answers s →
        (∃ draws, Drawn p (untallied steps, .start seeds steps.length) draws (upstream steps.length s) ∧
          Paced n draws ∧ valuesDrawn draws = letThrough steps.length s) ∧
            letThrough steps.length s ≤ n ∧
              (letThrough steps.length s = n → ∀ answers' s', Drawn p s answers' s' →
                upstream steps.length s' = upstream steps.length s) := by
  constructor
  · intro all g
    have hm := machine_keeps_kind (heights all)
    have hall := SameRun.refl (heights all) (Nat.le_refl _) (.start seeds all.length)
    have hheight : heights steps ≤ heights all :=
      heights_le_iff.2 fun s hs => heights_le_iff.1 (Nat.le_refl _) s (List.mem_append_left _ hs)
    have halone := SameRun.refl (heights all) hheight (.start seeds steps.length)
    constructor
    · obtain ⟨l, g', h⟩ := exists_drains_start hm all seeds g
      exact ⟨l, g', .agree (producer_agree _ _).symm hall h⟩
    · intro l g'
      rw [drains_iff (producer_agree _ _) hall, drawsValues_iff (producer_agree _ _) halone]
      exact drains_limit_iff hm steps (machine_layered.kind _ (.limit n)) seeds g g' l
  · intro later all p answers s h
    have hm := (machine_keeps_kind (heights all)).tallied
    have hall : untallied all = untallied steps ++ (.limit n, 0) :: untallied later := by
      simp [untallied, all]
    have hlength (l : List Step) : l.length = (untallied l).length := (List.length_map _).symm
    rw [hlength all, hall] at h
    rw [hlength steps]
    have hlimit : (machine (heights all)).tallied.kind (.limit n, 0) = .limiting n :=
      machine_layered.kind _ (.limit n)
    exact drawn_limit hm (untallied steps) hlimit (untallied later) seeds h

/-- Of three inputs a limit lets one through, so one vertex is added. -/
theorem limit_adds_one_vertex :
    Drains producer ([.addVertex "clone", .limit 1], .start [.null, .null, .null] 2) .empty
      [.ok (.vertex ⟨1⟩)] (Graph.empty.addVertex "clone").2 :=
  (((limit_stops_demand [.addVertex "clone"] 1 [.null, .null, .null]).1 .empty).2 _ _).2
    (.value rfl .enough)

end Step

end GraphTraversal
