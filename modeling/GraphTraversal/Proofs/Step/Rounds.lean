import Mathlib.Logic.Function.Iterate
import GraphTraversal.Proofs.Step.Routing

/-! # Rounds

A step that repeats its child goes level by level: it feeds every value of a level to the child, one after
another, and what comes out is the next level.  Rounds add up, and where the child changes nothing and
fails on nothing that it meets, the levels are the iterates of one function on lists.
-/

namespace GraphTraversal

/-- Goes on with the value, on the graph that is left; a failure is where it ends. -/
def proceed {α β : Type} (a : Except Error α × Graph) (f : α → Graph → Except Error β × Graph) :
    Except Error β × Graph :=
  match a with
  | (.ok x, g) => f x g
  | (.error e, g) => (.error e, g)

theorem proceed_assoc {α β γ : Type} (a : Except Error α × Graph)
    (f : α → Graph → Except Error β × Graph) (f' : β → Graph → Except Error γ × Graph) :
    proceed (proceed a f) f' = proceed a fun x g => proceed (f x g) f' := by
  obtain ⟨_ | x, g⟩ := a <;> rfl

namespace Pipeline

/-! ## Levels -/

/-- One round: everything that comes of each value of a level, one after another. -/
def nextLevel (p : Pipeline) : List Value → Graph → Except Error (List Value) × Graph
  | [], g => (.ok [], g)
  | v :: l, g => proceed (p.answer v g) fun found g =>
      proceed (nextLevel p l g) fun next g => (.ok (found ++ next), g)

def levelAfter (p : Pipeline) : Nat → List Value → Graph → Except Error (List Value) × Graph
  | 0, l, g => (.ok l, g)
  | n + 1, l, g => proceed (p.nextLevel l g) (levelAfter p n)

/-- Rounds add up. -/
theorem levelAfter_add (p : Pipeline) (a b : Nat) (l : List Value) (g : Graph) :
    p.levelAfter (a + b) l g = proceed (p.levelAfter a l g) (p.levelAfter b) := by
  induction a generalizing l g with
  | zero =>
    rw [Nat.zero_add]
    rfl
  | succ a ih =>
    rw [Nat.succ_add, levelAfter, levelAfter, proceed_assoc]
    congr 1
    funext l g
    exact ih l g

/-- An empty level stays empty. -/
theorem levelAfter_nil (p : Pipeline) (n : Nat) (g : Graph) : p.levelAfter n [] g = (.ok [], g) := by
  induction n with
  | zero => rfl
  | succ n ih => exact ih

section Machines

variable {q : Pipeline} {n : Nat}

/-- Machines for higher trees go level by level as well, wherever the cursors stand. -/
theorem seen_allForEach {p : Pipeline} (h : p.rewound = q.rewound) (hn : p.height ≤ n)
    (l : List Value) (g : Graph) : (p.allForEach (Step.machine n) l g).seen = q.nextLevel l g := by
  induction l generalizing p g with
  | nil => rfl
  | cons v l ih =>
    have hrewound := p.all_rewound (Step.machine_keeps n) v g
    have hheight : (p.all (Step.machine n) v g).state.height ≤ n := by
      rwa [← height_rewound, hrewound, height_rewound]
    have hrest := ih (hrewound.trans h) hheight
    rw [nextLevel, ← seen_all h hn v g, allForEach]
    generalize p.all (Step.machine n) v g = o at hrest
    obtain ⟨_ | found, p', g'⟩ := o
    · rfl
    · simp only [Outcome.seen, proceed, ← hrest]
      cases (p'.allForEach (Step.machine n) l g').result <;> rfl

theorem seen_rounds {p : Pipeline} (h : p.rewound = q.rewound) (hn : p.height ≤ n) (k : Nat)
    (l : List Value) (g : Graph) : (rounds (Step.machine n) k p l g).seen = q.levelAfter k l g := by
  induction k generalizing p l g with
  | zero => rfl
  | succ k ih =>
    cases l with
    | nil => exact (q.levelAfter_nil (k + 1) g).symm
    | cons v l =>
      have hrewound := p.allForEach_rewound (Step.machine_keeps n) (v :: l) g
      have hheight : (p.allForEach (Step.machine n) (v :: l) g).state.height ≤ n := by
        rwa [← height_rewound, hrewound, height_rewound]
      have hrest := ih (hrewound.trans h) hheight
      rw [levelAfter, ← seen_allForEach h hn (v :: l) g, rounds]
      generalize p.allForEach (Step.machine n) (v :: l) g = o at hrest
      obtain ⟨_ | next, p', g'⟩ := o
      · rfl
      · exact hrest next g'

end Machines

/-! ## Levels without effects -/

/-- On values of the class `S` the pipeline fails on no graph, and it yields values of the class. -/
def NeverFailsOn (p : Pipeline) (S : Value → Prop) : Prop :=
  ∀ v, S v → ∀ g, ∃ l, (p.answer v g).1 = .ok l ∧ ∀ w ∈ l, S w

def results (p : Pipeline) (g : Graph) (v : Value) : List Value :=
  match (p.answer v g).1 with
  | .ok l => l
  | .error _ => []

section Iterates

variable {p : Pipeline} {S : Value → Prop} (hS : p.NeverFailsOn S) (g : Graph)

include hS

theorem NeverFailsOn.answer_eq {v : Value} (hv : S v) :
    (p.answer v g).1 = .ok (p.results g v) ∧ ∀ w ∈ p.results g v, S w := by
  obtain ⟨l, hl, hw⟩ := hS v hv g
  simp only [results, hl]
  exact ⟨trivial, hw⟩

theorem NeverFailsOn.iterate {l : List Value} (hl : ∀ v ∈ l, S v) (n : Nat) :
    ∀ w ∈ (List.flatMap (p.results g))^[n] l, S w := by
  induction n generalizing l with
  | zero => exact hl
  | succ n ih =>
    refine ih fun w hw => ?_
    obtain ⟨v, hv, hw⟩ := List.mem_flatMap.1 hw
    exact (hS.answer_eq g (hl v hv)).2 w hw

variable (hread : p.ReadOnly)

include hread

theorem NeverFailsOn.nextLevel_eq {l : List Value} (hl : ∀ v ∈ l, S v) :
    p.nextLevel l g = (.ok (l.flatMap (p.results g)), g) := by
  induction l with
  | nil => rfl
  | cons v l ih =>
    obtain ⟨hv, hl⟩ := List.forall_mem_cons.1 hl
    have hanswer : p.answer v g = (.ok (p.results g v), g) :=
      Prod.ext (hS.answer_eq g hv).1 (p.all_eq Step.machine_layered hread le_rfl v).2
    rw [nextLevel, hanswer, List.flatMap_cons]
    simp only [proceed, ih hl]

/-- Each round maps the level and joins the results. -/
theorem NeverFailsOn.levelAfter_eq {l : List Value} (hl : ∀ v ∈ l, S v) (n : Nat) :
    p.levelAfter n l g = (.ok ((List.flatMap (p.results g))^[n] l), g) := by
  induction n generalizing l with
  | zero => rfl
  | succ n ih =>
    rw [levelAfter, hS.nextLevel_eq g hread hl]
    exact ih (hS.iterate g hl 1)

end Iterates

end Pipeline

/-- A step that repeats its child makes of an input the last of so many levels. -/
theorem Step.expand_repeat (p : Pipeline) (n : Nat) (v : Value) (g : Graph) :
    ((Step.repeat p (some n)).expand v g).seen = p.levelAfter n [v] g := by
  obtain ⟨k, hk⟩ := (Step.repeat p (some n)).exists_height_eq_succ
  rw [expand, hk]
  exact Pipeline.seen_rounds rfl (height_le_succ_iff.1 hk.le p List.mem_cons_self) n [v] g

end GraphTraversal
