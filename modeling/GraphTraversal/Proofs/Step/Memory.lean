import GraphTraversal.Proofs.Step.Demand

/-! # Steps have no memory

Cursors move and choices pass through phases while a step is evaluated, and children are left wherever
the evaluation stopped.  None of this shows later: however often a step has been evaluated, with success
or not, it evaluates as it did when it was built, and no choice in its tree is under way.
-/

namespace GraphTraversal

namespace Step

/-! ## Used steps -/

/-- A step that has not been evaluated: no cursor in its tree has moved, no choice has begun. -/
def Fresh (s : Step) : Prop := s.rewound = s

/-- The second step is what evaluations leave of the first, each on whatever inputs and graph. -/
inductive Used : Step → Step → Prop where
  | never (s : Step) : Used s s
  | expanded {s t : Step} (h : Used s t) (v : Value) (g : Graph) : Used s (t.expand v g).state
  | released {s t : Step} (h : Used s t) (l : List Value) (g : Graph) : Used s (t.release l g).state

theorem Used.rewound {s t : Step} (h : Used s t) : t.rewound = s.rewound := by
  induction h with
  | never => rfl
  | @expanded t _ v g ih => exact ((machine_keeps t.height).expand t v g).trans ih
  | @released t _ l g ih => exact ((machine_keeps t.height).release t l g).trans ih

abbrev SameShape (n k : Nat) (s s' : Step) : Prop := AlikeAt (fun _ => True) n k s s'

theorem sameShape {s t : Step} (h : s.rewound = t.rewound) : SameShape s.height t.height s t :=
  ⟨h, le_rfl, le_rfl, trivial, fun c _ => c.everywhere_true⟩

theorem machine_agree (n k : Nat) :
    Machine.Agree (machine n) (machine k) Eq (SameShape n k) fun _ => True :=
  machine_layered.agree (Closed.all machine) n k

/-- Inputs worked on one by one, up to the first error, fare alike. -/
theorem expandEach_agree {n k : Nat} (l : List Value) {s s' : Step}
    (h : SameShape (n + 1) (k + 1) s s') (g : Graph) :
    Outcome.Agree Eq (SameShape (n + 1) (k + 1)) (fun _ => True) (s.expandEach (machine n) l g)
      (s'.expandEach (machine k) l g) := by
  induction l generalizing s s' g with
  | nil => exact ⟨.ok [], h, rfl, trivial⟩
  | cons v l ih =>
    have hexpand : Outcome.Agree Eq (SameShape (n + 1) (k + 1)) (fun _ => True)
        (s.expandWith (machine n) v g) (s'.expandWith (machine k) v g) :=
      (machine_agree (n + 1) (k + 1)).expand h v trivial
    obtain ⟨found, t, t', g', ho, ho', ht, -⟩ | ⟨e, e', t, t', g', ho, ho', he, ht, -⟩ :=
      hexpand.cases
    · obtain ⟨hresult, hstate, hgraph, -⟩ := ih ht g'
      simp only [expandEach, ho, ho']
      exact ⟨hresult.map _, hstate, hgraph, trivial⟩
    · simp only [expandEach, ho, ho']
      exact ⟨.error he, ht, rfl, trivial⟩

theorem releaseWith_of_not_barrier (m : Machine Step) {s : Step} (hs : s.isBarrier = false)
    (l : List Value) (g : Graph) : s.releaseWith m l g = s.expandEach m l g := by
  cases s with
  | count | groupCount | order => cases hs
  | _ => rfl

theorem isBarrier_rewound (s : Step) : s.rewound.isBarrier = s.isBarrier := by
  cases s <;> rfl

/-- All inputs at once fare alike too, be the step a barrier or not. -/
theorem release_agree {n k : Nat} {s s' : Step} (h : SameShape (n + 1) (k + 1) s s') (l : List Value)
    (g : Graph) :
    Outcome.Agree Eq (SameShape (n + 1) (k + 1)) (fun _ => True) ((machine (n + 1)).release s l g)
      ((machine (k + 1)).release s' l g) := by
  cases hs : s.isBarrier with
  | true => exact (machine_agree (n + 1) (k + 1)).release h (kind_of_isBarrier hs) l trivial
  | false =>
    have hs' : s'.isBarrier = false := by rw [← isBarrier_rewound, ← h.rewound, isBarrier_rewound, hs]
    change Outcome.Agree Eq _ _ (s.releaseWith (machine n) l g) (s'.releaseWith (machine k) l g)
    rw [releaseWith_of_not_barrier _ hs, releaseWith_of_not_barrier _ hs']
    exact expandEach_agree l h g

theorem expand_of_rewound {s t : Step} (h : s.rewound = t.rewound) (v : Value) (g : Graph) :
    (s.expand v g).result = (t.expand v g).result ∧ (s.expand v g).graph = (t.expand v g).graph := by
  obtain ⟨hresult, -, hgraph, -⟩ :=
    (machine_agree s.height t.height).expand (sameShape h) v (g := g) trivial
  exact ⟨eqUpTo_iff_eq.1 hresult, hgraph⟩

theorem release_of_rewound {s t : Step} (h : s.rewound = t.rewound) (l : List Value) (g : Graph) :
    (s.release l g).result = (t.release l g).result ∧
      (s.release l g).graph = (t.release l g).graph := by
  obtain ⟨n, hn⟩ := s.exists_height_eq_succ
  obtain ⟨k, hk⟩ := t.exists_height_eq_succ
  have hshape := sameShape h
  rw [hn, hk] at hshape
  obtain ⟨hresult, -, hgraph, -⟩ := release_agree hshape l g
  simp only [release, hn, hk]
  exact ⟨eqUpTo_iff_eq.1 hresult, hgraph⟩

/-! ## Choices at rest -/

def isResting : Step → Bool
  | .choose _ phase => phase = .unevaluated
  | _ => true

theorem isResting_expandWith (m : Machine Step) {s : Step} (hs : s.isResting = true) (v : Value)
    (g : Graph) : (s.expandWith m v g).state.isResting = true := by
  cases s with
  | «repeat» child times => cases times <;> rfl
  | addVertex | property =>
    simp only [expandWith]
    split <;> rfl
  | _ => rfl

theorem isResting_releaseWith (m : Machine Step) {s : Step} (hs : s.isBarrier = true) (l : List Value)
    (g : Graph) : (s.releaseWith m l g).state.isResting = true := by
  cases s with
  | count | groupCount | order => rfl
  | _ => cases hs

theorem isResting_of_rewound {s : Step} (h : s.rewound = s) : s.isResting = true := by
  cases s with
  | choose decision phase =>
    obtain ⟨-, rfl⟩ : _ ∧ Phase.unevaluated = phase := by simpa [Step.rewound] using h
    rfl
  | _ => rfl

/-- In the tree of a fresh step no choice is under way. -/
theorem Fresh.everywhere_isResting {s : Step} (hs : s.Fresh) : s.Everywhere (·.isResting = true) := by
  have hfix {α : Type} {f : α → α} {l : List α} (h : l.map f = l) {x : α} (hx : x ∈ l) : f x = x :=
    List.map_inj_left.1 (h.trans (List.map_id l).symm) x hx
  have hchildren {s : Step} (h : s.rewound = s) : ∀ c ∈ s.children, c.rewound = c :=
    fun c hc => hfix (by rw [← s.children_rewound, h]) hc
  have hpipeline (p : Pipeline) (hp : p.rewound = p) : p.Everywhere (·.isResting = true) := by
    induction p using Pipeline.induction with
    | step p ih =>
      have hstep : ∀ s ∈ p.steps, s.rewound = s :=
        fun s hs => hfix (by rw [← p.steps_rewound, hp]) hs
      exact .intro (fun s hs => isResting_of_rewound (hstep s hs))
        fun s hs c hc => ih s hs c hc (hchildren (hstep s hs) c hc)
  exact ⟨isResting_of_rewound hs, fun c hc => hpipeline c (hchildren hs c hc)⟩

/-! ## Evaluations leave choices at rest -/

abbrev AtRest (s s' : Step) : Prop := s = s' ∧ s.Everywhere (·.isResting = true)

theorem expandWith_leaf (m : Machine Step) {s : Step} (hs : s.isBranching = false) (v : Value)
    (g : Graph) : (s.expandWith m v g).state = s := by
  cases s with
  | filter | and | «repeat» | choose | groupCount | project | order => cases hs
  | addVertex | property =>
    simp only [expandWith]
    split <;> rfl
  | _ => rfl

/-- Children whose steps come back at rest. -/
theorem childrenAgree_atRest {m : Machine Step} (hm : Machine.Agree m m Eq AtRest fun _ => True) :
    ChildrenAgree m m Eq (fun p p' => p = p' ∧ p.Everywhere (·.isResting = true)) fun _ => True := by
  have hsteps {p : Pipeline} (hp : p.Everywhere (·.isResting = true)) :
      List.Forall₂ AtRest p.steps p.steps :=
    List.forall₂_same.2 fun s hs => ⟨rfl, Pipeline.everywhere_iff.1 hp s hs⟩
  have hback {p : Pipeline} {steps steps' : List Step} (h : List.Forall₂ AtRest steps steps') :
      Pipeline.Everywhere (·.isResting = true) { p with steps } :=
    Pipeline.everywhere_iff.2 (forall_mem_left h fun _ _ hs => hs.2)
  constructor
  · rintro p _ ⟨rfl, hp⟩ v g -
    exact ⟨.refl _, ⟨rfl, hback (firstResult_agree hm (hsteps hp) v (g := g) trivial).state⟩, rfl,
      trivial⟩
  · rintro p _ ⟨rfl, hp⟩ v g -
    exact ⟨.refl _, ⟨rfl, hback (allResults_agree hm (hsteps hp) v (g := g) trivial).state⟩, rfl,
      trivial⟩

variable {m : Machine Step}

theorem expandWith_atRest (hm : Machine.Agree m m Eq AtRest fun _ => True) {s : Step}
    (hs : s.Everywhere (·.isResting = true)) (v : Value) (g : Graph) :
    (s.expandWith m v g).state.Everywhere (·.isResting = true) := by
  cases hb : s.isBranching with
  | true =>
    have hrelated : Step.Related (fun p p' => p = p' ∧ p.Everywhere (·.isResting = true)) s s :=
      related_self hb fun c hc => ⟨rfl, hs.2 c hc⟩
    have hstate := (expandWith_agree (childrenAgree_atRest hm) (fun _ _ => rfl) hrelated
      (fun _ _ _ _ _ => trivial) v (g := g) trivial).state
    exact ⟨isResting_expandWith m hs.1 v g, forall_mem_left hstate.children fun _ _ h => h.2⟩
  | false => rwa [expandWith_leaf m hb]

theorem expandEach_atRest (hm : Machine.Agree m m Eq AtRest fun _ => True) (l : List Value) {s : Step}
    (hs : s.Everywhere (·.isResting = true)) (g : Graph) :
    (s.expandEach m l g).state.Everywhere (·.isResting = true) := by
  induction l generalizing s g with
  | nil => exact hs
  | cons v l ih =>
    have hv := expandWith_atRest hm hs v g
    simp only [expandEach]
    split
    · exact hv
    · exact ih hv _

theorem releaseWith_atRest (hm : Machine.Agree m m Eq AtRest fun _ => True) {s : Step}
    (hs : s.Everywhere (·.isResting = true)) (l : List Value) (g : Graph) :
    (s.releaseWith m l g).state.Everywhere (·.isResting = true) := by
  cases hbarrier : s.isBarrier with
  | false =>
    rw [releaseWith_of_not_barrier m hbarrier]
    exact expandEach_atRest hm l hs g
  | true =>
    cases hb : s.isBranching with
    | true =>
      have hrelated : Step.Related (fun p p' => p = p' ∧ p.Everywhere (·.isResting = true)) s s :=
        related_self hb fun c hc => ⟨rfl, hs.2 c hc⟩
      have hstate := (releaseWith_agree (childrenAgree_atRest hm) (fun _ _ => rfl) hrelated l (g := g)
        trivial hbarrier).state
      exact ⟨isResting_releaseWith m hbarrier l g, forall_mem_left hstate.children fun _ _ h => h.2⟩
    | false =>
      obtain rfl := eq_count_of_isBarrier hb hbarrier
      exact hs

theorem machine_atRest (n : Nat) : Machine.Agree (machine n) (machine n) Eq AtRest fun _ => True := by
  induction n with
  | zero =>
    constructor
    · rintro s _ ⟨rfl, -⟩
      rfl
    · rintro s _ ⟨rfl, hs⟩ v g -
      exact ⟨.refl _, ⟨rfl, hs⟩, rfl, trivial⟩
    · rintro s _ ⟨rfl, hs⟩ - l g -
      exact ⟨.refl _, ⟨rfl, hs⟩, rfl, trivial⟩
  | succ n ih =>
    constructor
    · rintro s _ ⟨rfl, -⟩
      rfl
    · rintro s _ ⟨rfl, hs⟩ v g -
      exact ⟨.refl _, ⟨rfl, expandWith_atRest ih hs v g⟩, rfl, trivial⟩
    · rintro s _ ⟨rfl, hs⟩ - l g -
      exact ⟨.refl _, ⟨rfl, releaseWith_atRest ih hs l g⟩, rfl, trivial⟩

theorem Used.everywhere_isResting {s t : Step} (h : Used s t)
    (hs : s.Everywhere (·.isResting = true)) : t.Everywhere (·.isResting = true) := by
  induction h with
  | never => exact hs
  | @expanded t _ v g ih =>
    obtain ⟨n, hn⟩ := t.exists_height_eq_succ
    rw [expand, hn]
    exact expandWith_atRest (machine_atRest n) ih v g
  | @released t _ l g ih =>
    obtain ⟨n, hn⟩ := t.exists_height_eq_succ
    rw [release, hn]
    exact releaseWith_atRest (machine_atRest n) ih l g

/-- Evaluations leave no trace.  Take a fresh step and evaluate it again and again, one input at a time
or all inputs at once, on whatever graphs, with success or not.  What is left of it evaluates as the
fresh step does, with the same result and the same effect on the graph, and no choice in its tree, at
whatever depth, is under way. -/
theorem used_evaluates_as_fresh (s t : Step) (hs : s.Fresh) (h : Used s t) :
    (∀ v g, (t.expand v g).result = (s.expand v g).result ∧
        (t.expand v g).graph = (s.expand v g).graph) ∧
      (∀ l g, (t.release l g).result = (s.release l g).result ∧
        (t.release l g).graph = (s.release l g).graph) ∧
      t.Everywhere (·.isResting = true) :=
  ⟨fun v g => expand_of_rewound h.rewound v g, fun l g => release_of_rewound h.rewound l g,
    h.everywhere_isResting hs.everywhere_isResting⟩

/-- A rotation that an error broke off in the middle of a choice starts over with the next input. -/
theorem project_starts_over :
    let branch : Pipeline := { steps := [.identity] }
    let choice : Step :=
      .choose (.predicate { steps := [.adjacent .outward []] } branch branch) .unevaluated
    let s : Step := .project ["a", "b", "c"] (.ofList [branch, { steps := [choice] }])
    let t : Step := (s.expand (.string "lop") .empty).state
    (s.expand (.string "lop") .empty).result =
        .error (.execution (.expectsVertex "adjacent" "string")) ∧
      (t.expand (.vertex ⟨1⟩) .empty).result = .ok [.map [(.string "a", .vertex ⟨1⟩),
        (.string "b", .vertex ⟨1⟩), (.string "c", .vertex ⟨1⟩)]] := by
  intro branch choice s t
  have h : Used s t := .expanded (.never s) (.string "lop") .empty
  have hresult := ((used_evaluates_as_fresh s t rfl h).1 (.vertex ⟨1⟩) .empty).1
  exact ⟨by decide, hresult.trans (by decide)⟩

end Step

end GraphTraversal
