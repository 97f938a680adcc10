import Mathlib.Order.Lattice
import GraphTraversal.Step.Basic

/-! # The tree of steps

Induction over pipelines through the children of their steps, properties that hold at every depth, and
steps rewound: with all cursors and phases below them set back, which is how they look before they are
first evaluated.
-/

namespace GraphTraversal

/-! ## Height and induction -/

theorem Step.heights_le_iff {l : List Step} {n : Nat} :
    Step.heights l ≤ n ↔ ∀ s ∈ l, s.height ≤ n := by
  induction l with
  | nil => simp [Step.heights]
  | cons s l ih => simp [Step.heights, ih]

theorem Pipeline.heights_le_iff {l : List Pipeline} {n : Nat} :
    Pipeline.heights l ≤ n ↔ ∀ p ∈ l, p.height ≤ n := by
  induction l with
  | nil => simp [Pipeline.heights]
  | cons p l ih => simp [Pipeline.heights, ih]

theorem Decision.optionHeights_le_iff {l : List (Value × Pipeline)} {n : Nat} :
    Decision.optionHeights l ≤ n ↔ ∀ p ∈ l.map (·.2), p.height ≤ n := by
  induction l with
  | nil => simp [Decision.optionHeights]
  | cons o l ih => simp [Decision.optionHeights, ih]

theorem Comparator.heights_le_iff {l : List Comparator} {n : Nat} :
    Comparator.heights l ≤ n ↔ ∀ p ∈ l.filterMap (·.child?), p.height ≤ n := by
  induction l with
  | nil => simp [Comparator.heights]
  | cons c l ih =>
    cases c with
    | «by» p => simp [Comparator.heights, Comparator.child?, ih]
    | self o => simp [Comparator.heights, Comparator.child?, ih]

theorem Pipeline.height_le_iff {p : Pipeline} {n : Nat} :
    p.height ≤ n ↔ ∀ s ∈ p.steps, s.height ≤ n := by
  cases p
  exact Step.heights_le_iff

theorem Step.height_le_succ_iff {s : Step} {n : Nat} :
    s.height ≤ n + 1 ↔ ∀ c ∈ s.children, c.height ≤ n := by
  cases s with
  | filter child injectedBy => simp [Step.height, Step.children]
  | and children => simp [Step.height, Step.children, Pipeline.heights_le_iff]
  | «repeat» child times => simp [Step.height, Step.children]
  | choose decision phase =>
    cases decision with
    | lambda test yes no => simp [Step.height, Step.children, Decision.children]
    | predicate test yes no => simp [Step.height, Step.children, Decision.children]
    | selector pick options fallback =>
      cases fallback with
      | none =>
        simp [Step.height, Step.children, Decision.children,
          Decision.optionHeights_le_iff]
      | some child =>
        simp [Step.height, Step.children, Decision.children,
          Decision.optionHeights_le_iff, or_imp, forall_and]
  | groupCount ring => simp [Step.height, Step.children, Pipeline.heights_le_iff]
  | project names ring => simp [Step.height, Step.children, Pipeline.heights_le_iff]
  | order comparators =>
    simp only [Step.height, Nat.add_le_add_iff_right, Comparator.heights_le_iff]
    rfl
  | _ => simp [Step.height, Step.children]

theorem Step.height_pos (s : Step) : 0 < s.height := by
  cases s with
  | choose decision phase =>
    cases decision with
    | selector pick options fallback => cases fallback <;> simp [Step.height]
    | _ => simp [Step.height]
  | groupCount ring => simp [Step.height]
  | project names ring => simp [Step.height]
  | _ => simp [Step.height]

theorem Step.exists_height_eq_succ (s : Step) : ∃ n, s.height = n + 1 :=
  ⟨_, (Nat.succ_pred s.height_pos.ne').symm⟩

/-- A property that passes from the children of its steps to a pipeline holds of every pipeline. -/
theorem Pipeline.induction {motive : Pipeline → Prop}
    (step : ∀ p, (∀ s ∈ p.steps, ∀ c ∈ s.children, motive c) → motive p) (p : Pipeline) :
    motive p := by
  suffices h : ∀ n p, Pipeline.height p ≤ n → motive p from h _ p le_rfl
  intro n
  induction n with
  | zero =>
    intro p hp
    apply step p
    intro s hs
    have := Pipeline.height_le_iff.1 hp s hs
    have := s.height_pos
    omega
  | succ n ih =>
    intro p hp
    refine step p fun s hs c hc => ih c ?_
    exact Step.height_le_succ_iff.1 (Pipeline.height_le_iff.1 hp s hs) c hc

/-! ## Properties at every depth -/

inductive Pipeline.Everywhere (P : Step → Prop) : Pipeline → Prop where
  | intro {p : Pipeline} (here : ∀ s ∈ p.steps, P s)
    (below : ∀ s ∈ p.steps, ∀ c ∈ s.children, Everywhere P c) : Everywhere P p

def Step.Everywhere (P : Step → Prop) (s : Step) : Prop :=
  P s ∧ ∀ c ∈ s.children, c.Everywhere P

theorem Pipeline.everywhere_iff {P : Step → Prop} {p : Pipeline} :
    p.Everywhere P ↔ ∀ s ∈ p.steps, s.Everywhere P := by
  constructor
  · rintro ⟨here, below⟩ s hs
    exact ⟨here s hs, below s hs⟩
  · intro h
    exact ⟨fun s hs => (h s hs).1, fun s hs => (h s hs).2⟩

/-- Tests a property at every depth of a tree that is at most `n` high. -/
def Pipeline.everywhereTo (P : Step → Bool) : Nat → Pipeline → Bool
  | 0, _ => true
  | n + 1, p => p.steps.all fun s => P s && s.children.all (everywhereTo P n)

theorem Pipeline.everywhereTo_iff {P : Step → Bool} {n : Nat} {p : Pipeline} (hn : p.height ≤ n) :
    p.everywhereTo P n ↔ p.Everywhere (P · = true) := by
  induction n generalizing p with
  | zero =>
    refine iff_of_true rfl (Pipeline.everywhere_iff.2 fun s hs => ?_)
    exact absurd (Pipeline.height_le_iff.1 hn s hs) s.height_pos.not_ge
  | succ n ih =>
    rw [Pipeline.everywhere_iff, everywhereTo, List.all_eq_true]
    apply forall₂_congr
    intro s hs
    rw [Bool.and_eq_true, List.all_eq_true]
    have hheight := Step.height_le_succ_iff.1 (Pipeline.height_le_iff.1 hn s hs)
    exact and_congr_right fun _ => forall₂_congr fun c hc => ih (hheight c hc)

instance (P : Step → Prop) [DecidablePred P] (p : Pipeline) : Decidable (p.Everywhere P) :=
  decidable_of_iff (p.everywhereTo (fun s => decide (P s)) p.height) <| by
    rw [Pipeline.everywhereTo_iff le_rfl]
    simp only [decide_eq_true_eq]

instance (P : Step → Prop) [DecidablePred P] (s : Step) : Decidable (s.Everywhere P) :=
  inferInstanceAs (Decidable (_ ∧ _))

theorem Pipeline.Everywhere.imp {P Q : Step → Prop} (h : ∀ s, P s → Q s) {p : Pipeline}
    (hp : p.Everywhere P) : p.Everywhere Q := by
  induction hp with
  | intro here below ih => exact ⟨fun s hs => h s (here s hs), ih⟩

/-! ## Steps that write -/

/-- The lambda never writes to the graph that it has in hand. -/
def Lambda.ReadOnly (l : Lambda) : Prop := ∀ g v, l.leaves g v = g

/-- Neither the step itself writes to the graph nor the lambda that it decides by. -/
structure Step.KeepsGraph (s : Step) : Prop where
  isMutating : s.isMutating = false
  lambda : ∀ l ∈ s.lambda?, l.ReadOnly

/-- Nothing in the pipeline writes to the graph, at whatever depth. -/
def Pipeline.ReadOnly (p : Pipeline) : Prop := p.Everywhere Step.KeepsGraph

def Step.ReadOnly (s : Step) : Prop := s.Everywhere Step.KeepsGraph

def Step.isPlain (s : Step) : Bool := !s.isMutating && !s.usesLambda

theorem Step.keepsGraph_of_isPlain {s : Step} (h : s.isPlain) : s.KeepsGraph := by
  cases s with
  | addVertex | property | drop => cases h
  | choose decision phase =>
    cases decision with
    | lambda => cases h
    | _ => exact ⟨rfl, nofun⟩
  | _ => exact ⟨rfl, nofun⟩

theorem Pipeline.readOnly_of_isPlain {p : Pipeline} (h : p.Everywhere (·.isPlain)) : p.ReadOnly :=
  h.imp fun _ => Step.keepsGraph_of_isPlain

theorem Step.readOnly_of_isPlain {s : Step} (h : s.Everywhere (·.isPlain)) : s.ReadOnly :=
  ⟨Step.keepsGraph_of_isPlain h.1, fun c hc => Pipeline.readOnly_of_isPlain (h.2 c hc)⟩

theorem Step.forall_readOnly_of_isPlain {l : List Step} (h : ∀ s ∈ l, s.Everywhere (·.isPlain)) :
    ∀ s ∈ l, s.ReadOnly :=
  fun s hs => Step.readOnly_of_isPlain (h s hs)

def Step.isInjected : Step → Bool
  | .filter _ (some _) => true
  | _ => false

/-- A property of the steps that no strategy injected and whose lambdas are of the class `L`; with
`writing` also of those that write. -/
structure HoldsOfBuilt (writing : Bool) (L : Lambda → Prop) (P : Step → Prop) : Prop where
  built : ∀ {s : Step}, s.isInjected = false → (s.isMutating → writing) → (∀ l ∈ s.lambda?, L l) → P s
  lambda : ∀ {s : Step}, P s → ∀ l ∈ s.lambda?, L l

theorem HoldsOfBuilt.everywhere {writing : Bool} {L : Lambda → Prop} {P : Step → Prop}
    (hP : HoldsOfBuilt writing L P) {s : Step} (hi : s.isInjected = false)
    (hm : s.isMutating = false) (hl : ∀ l ∈ s.lambda?, L l)
    (hc : ∀ c ∈ s.children, c.Everywhere P) : s.Everywhere P := by
  refine ⟨hP.built hi (fun h => ?_) hl, hc⟩
  rw [hm] at h
  cases h

theorem HoldsOfBuilt.everywhere_of_no_lambda {writing : Bool} {L : Lambda → Prop} {P : Step → Prop}
    (hP : HoldsOfBuilt writing L P) {s : Step} (hi : s.isInjected = false)
    (hm : s.isMutating = false) (hl : s.lambda? = none) (hc : ∀ c ∈ s.children, c.Everywhere P) :
    s.Everywhere P :=
  hP.everywhere hi hm (by simp [hl]) hc

theorem HoldsOfBuilt.keepsGraph : HoldsOfBuilt false Lambda.ReadOnly Step.KeepsGraph where
  built {s} _ hm hl := by
    refine ⟨?_, hl⟩
    cases h : s.isMutating with
    | false => rfl
    | true => cases hm h
  lambda h := h.lambda

/-! ## Rewinding -/

mutual

/-- A pipeline with all cursors and phases set back. -/
def Pipeline.rewound : Pipeline → Pipeline
  | ⟨steps, mode⟩ => ⟨Step.rewoundAll steps, mode⟩

def Step.rewoundAll : List Step → List Step
  | [] => []
  | s :: l => s.rewound :: Step.rewoundAll l

def Step.rewound : Step → Step
  | .filter child injectedBy => .filter child.rewound injectedBy
  | .and children => .and (Pipeline.rewoundAll children)
  | .repeat child times => .repeat child.rewound times
  | .choose decision _ => .choose decision.rewound .unevaluated
  | .groupCount ⟨items, _⟩ => .groupCount ⟨Pipeline.rewoundAll items, none⟩
  | .project names ⟨items, _⟩ => .project names ⟨Pipeline.rewoundAll items, none⟩
  | .order comparators => .order (Comparator.rewoundAll comparators)
  | s => s

def Pipeline.rewoundAll : List Pipeline → List Pipeline
  | [] => []
  | p :: l => p.rewound :: Pipeline.rewoundAll l

def Decision.rewound : Decision → Decision
  | .lambda test yes no => .lambda test yes.rewound no.rewound
  | .predicate test yes no => .predicate test.rewound yes.rewound no.rewound
  | .selector pick options fallback =>
    .selector pick.rewound (Decision.rewoundOptions options)
      (match fallback with
        | none => none
        | some child => some child.rewound)

def Decision.rewoundOptions : List (Value × Pipeline) → List (Value × Pipeline)
  | [] => []
  | (token, p) :: l => (token, p.rewound) :: Decision.rewoundOptions l

def Comparator.rewoundAll : List Comparator → List Comparator
  | [] => []
  | .by p :: l => .by p.rewound :: Comparator.rewoundAll l
  | .self order :: l => .self order :: Comparator.rewoundAll l

end

def Comparator.rewound : Comparator → Comparator
  | .by p => .by p.rewound
  | .self order => .self order

theorem Step.rewoundAll_eq (l : List Step) : Step.rewoundAll l = l.map Step.rewound := by
  induction l with
  | nil => rfl
  | cons s l ih => rw [Step.rewoundAll, ih, List.map_cons]

theorem Pipeline.rewoundAll_eq (l : List Pipeline) :
    Pipeline.rewoundAll l = l.map Pipeline.rewound := by
  induction l with
  | nil => rfl
  | cons p l ih => rw [Pipeline.rewoundAll, ih, List.map_cons]

theorem Decision.rewoundOptions_eq (l : List (Value × Pipeline)) :
    Decision.rewoundOptions l = l.map fun o => (o.1, o.2.rewound) := by
  induction l with
  | nil => rfl
  | cons o l ih => rw [Decision.rewoundOptions, ih, List.map_cons]

theorem Comparator.rewoundAll_eq (l : List Comparator) :
    Comparator.rewoundAll l = l.map Comparator.rewound := by
  induction l with
  | nil => rfl
  | cons c l ih => cases c <;> rw [Comparator.rewoundAll, ih, List.map_cons] <;> rfl

theorem Pipeline.rewound_eq (p : Pipeline) : p.rewound = ⟨p.steps.map Step.rewound, p.mode⟩ := by
  cases p
  rw [← Step.rewoundAll_eq]
  rfl

@[simp] theorem Pipeline.steps_rewound (p : Pipeline) : p.rewound.steps = p.steps.map Step.rewound := by
  rw [Pipeline.rewound_eq]

theorem Decision.rewound_selector (pick : Pipeline) (options : List (Value × Pipeline))
    (fallback : Option Pipeline) :
    (Decision.selector pick options fallback).rewound =
      .selector pick.rewound (options.map fun o => (o.1, o.2.rewound))
        (fallback.map Pipeline.rewound) := by
  rw [← Decision.rewoundOptions_eq]
  cases fallback <;> rfl

theorem Decision.children_rewound (d : Decision) :
    d.rewound.children = d.children.map Pipeline.rewound := by
  cases d with
  | lambda test yes no => rfl
  | predicate test yes no => rfl
  | selector pick options fallback =>
    rw [Decision.rewound_selector]
    cases fallback <;> simp [Decision.children]

theorem Step.children_rewound (s : Step) :
    s.rewound.children = s.children.map Pipeline.rewound := by
  cases s with
  | and children => exact Pipeline.rewoundAll_eq children
  | choose decision phase => exact decision.children_rewound
  | groupCount ring => exact Pipeline.rewoundAll_eq ring.items
  | project names ring => exact Pipeline.rewoundAll_eq ring.items
  | order comparators =>
    rw [Step.rewound, Comparator.rewoundAll_eq]
    induction comparators with
    | nil => rfl
    | cons c l ih =>
      cases c with
      | «by» p => exact congrArg (p.rewound :: ·) ih
      | self o => exact ih
  | _ => rfl

@[simp] theorem Step.isMutating_rewound (s : Step) : s.rewound.isMutating = s.isMutating := by
  cases s <;> rfl

@[simp] theorem Step.lambda?_rewound (s : Step) : s.rewound.lambda? = s.lambda? := by
  cases s with
  | choose decision phase => cases decision <;> rfl
  | _ => rfl

theorem Step.keepsGraph_rewound_iff {s : Step} : s.rewound.KeepsGraph ↔ s.KeepsGraph := by
  constructor
  · intro h
    exact ⟨s.isMutating_rewound ▸ h.isMutating, s.lambda?_rewound ▸ h.lambda⟩
  · intro h
    exact ⟨s.isMutating_rewound.symm ▸ h.isMutating, s.lambda?_rewound.symm ▸ h.lambda⟩

theorem Pipeline.height_rewound (p : Pipeline) : p.rewound.height = p.height := by
  have h (n : Nat) : ∀ p : Pipeline, p.rewound.height ≤ n ↔ p.height ≤ n := by
    intro p
    induction p using Pipeline.induction generalizing n with
    | step p ih =>
      simp only [Pipeline.height_le_iff, Pipeline.rewound_eq, List.forall_mem_map]
      apply forall₂_congr
      intro s hs
      cases n with
      | zero => exact iff_of_false s.rewound.height_pos.not_ge s.height_pos.not_ge
      | succ n =>
        simp only [Step.height_le_succ_iff, Step.children_rewound, List.forall_mem_map]
        exact forall₂_congr fun c hc => ih s hs c hc n
  exact eq_of_forall_ge_iff fun n => h n p

theorem Step.height_rewound (s : Step) : s.rewound.height = s.height := by
  have h := Pipeline.height_rewound ⟨[s], .standard⟩
  simpa [Pipeline.rewound_eq, Pipeline.height, Step.heights] using h

theorem Pipeline.readOnly_rewound_iff {p : Pipeline} : p.rewound.ReadOnly ↔ p.ReadOnly := by
  induction p using Pipeline.induction with
  | step p ih =>
    rw [Pipeline.ReadOnly, Pipeline.ReadOnly, Pipeline.everywhere_iff, Pipeline.everywhere_iff,
      Pipeline.rewound_eq]
    simp only [List.forall_mem_map, Step.Everywhere, Step.children_rewound,
      Step.keepsGraph_rewound_iff]
    exact forall₂_congr fun s hs => and_congr_right fun _ => forall₂_congr fun c hc => ih s hs c hc

theorem Step.readOnly_rewound_iff {s : Step} : s.rewound.ReadOnly ↔ s.ReadOnly := by
  simp only [Step.ReadOnly, Step.Everywhere, Step.children_rewound, Step.keepsGraph_rewound_iff,
    List.forall_mem_map]
  exact and_congr_right fun _ => forall₂_congr fun c _ => Pipeline.readOnly_rewound_iff

end GraphTraversal
