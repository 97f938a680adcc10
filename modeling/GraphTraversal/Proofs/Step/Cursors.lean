import GraphTraversal.Proofs.Data.Ring
import GraphTraversal.Proofs.Run.Persistence
import GraphTraversal.Proofs.Step.Tree
import GraphTraversal.Step.Evaluation

/-! # Evaluation moves cursors

A step that comes back from an evaluation differs from the step that went in by the cursors and phases
in the tree below it and by nothing else: rewound, the two are equal.  This holds of every step on every
graph, whether the evaluation fails or not.
-/

namespace GraphTraversal

section Children

variable {m : Machine Step} (hm : m.Keeps Step.rewound)

include hm

namespace Pipeline

theorem first_rewound (p : Pipeline) (v : Value) (g : Graph) :
    (p.first m v g).state.rewound = p.rewound := by
  rw [rewound_eq, rewound_eq]
  exact congrArg (Pipeline.mk · p.mode) (firstResult_keeps hm p.steps v g)

theorem all_rewound (p : Pipeline) (v : Value) (g : Graph) :
    (p.all m v g).state.rewound = p.rewound := by
  rw [rewound_eq, rewound_eq]
  exact congrArg (Pipeline.mk · p.mode) (allResults_keeps hm p.steps v g)

theorem allForEach_rewound (p : Pipeline) (l : List Value) (g : Graph) :
    (p.allForEach m l g).state.rewound = p.rewound := by
  induction l generalizing p g with
  | nil => rfl
  | cons v l ih =>
    have hp := all_rewound hm p v g
    simp only [allForEach]
    split
    · exact hp
    · exact (ih _ _).trans hp

theorem rounds_rewound (n : Nat) (p : Pipeline) (l : List Value) (g : Graph) :
    (rounds m n p l g).state.rewound = p.rewound := by
  induction n generalizing p l g with
  | zero => rfl
  | succ n ih =>
    have hp := allForEach_rewound hm p l g
    simp only [rounds]
    split
    · rfl
    · split
      · exact hp
      · exact (ih _ _ _).trans hp

theorem allHold_rewound (l : List Pipeline) (v : Value) (g : Graph) :
    (allHold m l v g).state.map rewound = l.map rewound := by
  induction l generalizing g with
  | nil => rfl
  | cons p l ih =>
    have hp := first_rewound hm p v g
    simp only [allHold]
    split <;> simp only [List.map_cons, hp, ih]

end Pipeline

namespace Decision

theorem token_rewound (d : Decision) (v : Value) (g : Graph) :
    (d.token m v g).state.rewound = d.rewound := by
  cases d with
  | lambda test yes no => rfl
  | predicate test yes no =>
    simp only [token, rewound]
    rw [Pipeline.first_rewound hm]
  | selector pick options fallback =>
    simp only [token, rewound_selector]
    rw [Pipeline.all_rewound hm]

theorem runOption_rewound (l : List (Value × Pipeline)) (i : Nat) (v : Value) (g : Graph) :
    (runOption m v g l i).state.map (fun o => (o.1, o.2.rewound)) =
      l.map fun o => (o.1, o.2.rewound) := by
  induction l generalizing i with
  | nil => rfl
  | cons o l ih =>
    cases i with
    | zero => simp only [runOption, List.map_cons, Pipeline.all_rewound hm]
    | succ i => simp only [runOption, List.map_cons, ih]

theorem follow_rewound (d : Decision) (route : Route) (v : Value) (g : Graph) :
    (d.follow m route v g).state.rewound = d.rewound := by
  unfold follow
  split
  · simp only [rewound, Pipeline.all_rewound hm]
  · simp only [rewound, Pipeline.all_rewound hm]
  · simp only [rewound, Pipeline.all_rewound hm]
  · simp only [rewound, Pipeline.all_rewound hm]
  · simp only [rewound_selector, runOption_rewound hm]
  · simp only [rewound_selector, Option.map_some, Pipeline.all_rewound hm]
  · rfl

theorem evaluate_rewound (d : Decision) (v : Value) (g : Graph) :
    (d.evaluate m v g).state.1.rewound = d.rewound := by
  have htoken := token_rewound hm d v g
  simp only [evaluate]
  split
  · exact htoken
  · split <;> exact (follow_rewound hm _ _ _ _).trans htoken

end Decision

theorem Ring.nextValue_rewound (r : Ring Pipeline) (v : Value) (g : Graph) :
    (r.nextValue m v g).state.items.map Pipeline.rewound = r.items.map Pipeline.rewound := by
  rcases r with ⟨items, cursor⟩
  cases items with
  | nil => rfl
  | cons p items =>
    simp only [nextValue]
    rw [next?_eq (List.cons_ne_nil p items)]
    cases hp : (p :: items)[turn ⟨p :: items, cursor⟩]? with
    | none => rfl
    | some q => exact map_items_setCurrent _ hp (Pipeline.first_rewound hm q v g)

theorem groupCounts_rewound (r : Ring Pipeline) (l : List Value) (counts : List (Value × Nat))
    (g : Graph) :
    (groupCounts m r l counts g).state.items.map Pipeline.rewound =
      r.items.map Pipeline.rewound := by
  induction l generalizing r counts g with
  | nil => rfl
  | cons v l ih =>
    have hr := Ring.nextValue_rewound hm r.reset v g
    simp only [groupCounts]
    split
    · exact hr
    · exact (ih _ _ _).trans hr
    · exact (ih _ _ _).trans hr

theorem projectEntries_rewound (names : List String) (r : Ring Pipeline) (v : Value) (g : Graph) :
    (projectEntries m v names r g).state.items.map Pipeline.rewound =
      r.items.map Pipeline.rewound := by
  induction names generalizing r g with
  | nil => rfl
  | cons name names ih =>
    have hr := Ring.nextValue_rewound hm r v g
    simp only [projectEntries]
    split
    · exact hr
    · exact (ih _ _).trans hr

namespace Comparator

theorem keysOf_rewound (l : List Comparator) (v : Value) (g : Graph) :
    (keysOf m v l g).state.map rewound = l.map rewound := by
  induction l generalizing g with
  | nil => rfl
  | cons c l ih =>
    cases c with
    | self order => simp only [keysOf, List.map_cons, ih]
    | «by» child =>
      have hchild := Pipeline.first_rewound hm child v g
      simp only [keysOf]
      split <;> simp only [List.map_cons, rewound, hchild, ih]

theorem keyed_rewound (l : List Comparator) (inputs : List Value) (g : Graph) :
    (keyed m l inputs g).state.map rewound = l.map rewound := by
  induction inputs generalizing l g with
  | nil => rfl
  | cons v inputs ih =>
    have hl := keysOf_rewound hm l v g
    simp only [keyed]
    split
    · exact hl
    · exact (ih _ _).trans hl

theorem sort_rewound (l : List Comparator) (inputs : List Value) (g : Graph) :
    (sort m l inputs g).state.map rewound = l.map rewound := by
  simp only [sort]
  split
  · rfl
  · exact keyed_rewound hm l inputs g

end Comparator

namespace Step

theorem expandWith_rewound (s : Step) (v : Value) (g : Graph) :
    (s.expandWith m v g).state.rewound = s.rewound := by
  cases s with
  | filter child injectedBy => simp only [expandWith, rewound, Pipeline.first_rewound hm]
  | and children =>
    simp only [expandWith, rewound, Pipeline.rewoundAll_eq, Pipeline.allHold_rewound hm]
  | «repeat» child times =>
    cases times with
    | none => rfl
    | some n => simp only [expandWith, rewound, Pipeline.rounds_rewound hm]
  | choose decision phase => simp only [expandWith, rewound, Decision.evaluate_rewound hm]
  | groupCount ring =>
    simp only [expandWith, rewound, Pipeline.rewoundAll_eq, groupCounts_rewound hm]
  | project names ring =>
    simp only [expandWith, rewound, Pipeline.rewoundAll_eq, projectEntries_rewound hm, Ring.reset]
  | addVertex | property =>
    simp only [expandWith]
    split <;> rfl
  | _ => rfl

theorem expandEach_rewound (s : Step) (l : List Value) (g : Graph) :
    (s.expandEach m l g).state.rewound = s.rewound := by
  induction l generalizing s g with
  | nil => rfl
  | cons v l ih =>
    have hs := expandWith_rewound hm s v g
    simp only [expandEach]
    split
    · exact hs
    · exact (ih _ _).trans hs

theorem releaseWith_rewound (s : Step) (l : List Value) (g : Graph) :
    (s.releaseWith m l g).state.rewound = s.rewound := by
  cases s with
  | count => rfl
  | groupCount ring =>
    simp only [releaseWith, rewound, Pipeline.rewoundAll_eq, groupCounts_rewound hm]
  | order comparators =>
    simp only [releaseWith, rewound, Comparator.rewoundAll_eq, Comparator.sort_rewound hm]
  | _ => exact expandEach_rewound hm _ l g

end Step

end Children

/-- Evaluating a step leaves it as it is, apart from cursors and phases. -/
theorem Step.machine_keeps (n : Nat) : (Step.machine n).Keeps Step.rewound := by
  induction n with
  | zero => exact ⟨fun _ _ _ => rfl, fun _ _ _ => rfl⟩
  | succ n ih => exact ⟨expandWith_rewound ih, releaseWith_rewound ih⟩

end GraphTraversal
