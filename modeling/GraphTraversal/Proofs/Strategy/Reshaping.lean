import GraphTraversal.Proofs.Strategy.Levels

/-! # What reshaping keeps

The strategies put into a pipeline only steps to edges and to their ends, steps to neighbours, and the
filters for their criteria.  A property that these have stays with every pipeline that is reshaped.
-/

namespace GraphTraversal

/-! ## The steps after hiding -/

def Produces.criterion (vertices edges : Option Pipeline) : Produces → Option Pipeline
  | .vertices => vertices
  | .edges => edges
  | .other => none

section Hiding

variable {vertices edges : Option Pipeline}

/-- A step that is not taken apart: no step to neighbours on one side, or there are no edges to judge. -/
def Step.IsKept (edges : Option Pipeline) (s : Step) : Prop :=
  ∀ d labels, s = .adjacent d labels → d = .both ∨ edges = none

theorem Step.isKept_or (edges : Option Pipeline) (s : Step) :
    s.IsKept edges ∨ ∃ d labels, s = .adjacent d labels ∧ d ≠ .both ∧ edges ≠ none := by
  by_cases h : s.IsKept edges
  · exact .inl h
  · rw [Step.IsKept] at h
    push Not at h
    exact .inr h

theorem hideAfter_eq {s : Step} (hd : s.IsKept edges) :
    hideAfter vertices edges s = s :: criterionFilter (s.produces.criterion vertices edges) := by
  cases s with
  | adjacent d labels =>
    rcases hd d labels rfl with rfl | rfl
    · rfl
    · cases d <;> rfl
  | _ => rfl

theorem hideAfter_branching {s : Step} (hs : s.isBranching) : hideAfter vertices edges s = [s] := by
  cases s with
  | filter | and | «repeat» | choose | groupCount | project | order => rfl
  | _ => cases hs

theorem hideAfter_adjacent {d : Direction} (hd : d ≠ .both) {labels : List String}
    (hedges : edges ≠ none) :
    hideAfter vertices edges (.adjacent d labels) =
      .incident d labels :: criterionFilter edges ++
        .endpoint d.opposite :: criterionFilter vertices := by
  cases edges with
  | none => exact absurd rfl hedges
  | some c =>
    cases d with
    | outward | inward => rfl
    | both => exact absurd rfl hd

end Hiding

theorem isCriterionFilter_eq_false {s : Step} (h : s.isInjected = false) :
    isCriterionFilter s = false := by
  cases s with
  | filter child injectedBy =>
    cases injectedBy with
    | none => rfl
    | some name => cases h
  | _ => rfl

theorem isCriterionFilter_mapLevels (f : Pipeline → Pipeline) (s : Step) :
    isCriterionFilter (s.mapLevels f) = isCriterionFilter s := by
  rcases s.mapLevels_eq_or_isOpen f with hs | ⟨hs, hs'⟩
  · rw [hs]
  · rw [isCriterionFilter_eq_false hs.isInjected, isCriterionFilter_eq_false hs'.isInjected]

/-! ## Properties of all steps -/

def Behaviour.criteria : Behaviour → List Pipeline
  | .hideOutside vertices edges => vertices.toList ++ edges.toList
  | _ => []

theorem forall_mem_fuseEdgeWalks {P : Step → Prop} (hadjacent : ∀ d labels, P (.adjacent d labels))
    {steps : List Step} (h : ∀ s ∈ steps, P s) : ∀ s ∈ fuseEdgeWalks steps, P s := by
  induction steps using fuseEdgeWalks.induct with
  | case1 d labels e steps hde ih =>
    rw [fuseEdgeWalks, if_pos hde]
    simp only [List.forall_mem_cons] at h ⊢
    exact ⟨hadjacent d labels, ih h.2.2⟩
  | case2 d labels e steps hde ih =>
    rw [fuseEdgeWalks, if_neg hde]
    rw [List.forall_mem_cons] at h ⊢
    exact ⟨h.1, ih h.2⟩
  | case3 s steps hs ih =>
    rw [fuseEdgeWalks]
    · rw [List.forall_mem_cons] at h ⊢
      exact ⟨h.1, ih h.2⟩
    · exact hs
  | case4 => exact h

theorem forall_mem_removeIdentities {P : Step → Prop} {steps : List Step} (h : ∀ s ∈ steps, P s) :
    ∀ s ∈ removeIdentities steps, P s := by
  intro s hs
  rw [removeIdentities] at hs
  split at hs
  · exact h s (List.mem_of_mem_filter hs)
  · exact h s hs

theorem forall_mem_criterionFilter {P : Step → Prop} {criterion : Option Pipeline}
    (h : ∀ c ∈ criterion, P (.filter c (some Strategy.subgraphName))) :
    ∀ s ∈ criterionFilter criterion, P s := by
  cases criterion with
  | none =>
    intro s hs
    cases hs
  | some c => exact List.forall_mem_singleton.2 (h c rfl)

section Reshaping

variable {P : Step → Prop} (hP : ∀ s : Step, s.produces ≠ .other → P s)

include hP

section Hiding

variable {vertices edges : Option Pipeline}
  (hv : ∀ c ∈ vertices, P (.filter c (some Strategy.subgraphName)))
  (he : ∀ c ∈ edges, P (.filter c (some Strategy.subgraphName)))

include hv he

theorem forall_mem_hideAfter {s : Step} (hs : P s) : ∀ t ∈ hideAfter vertices edges s, P t := by
  rcases s.isKept_or edges with hd | ⟨d, labels, rfl, hboth, hsome⟩
  · rw [hideAfter_eq hd]
    refine List.forall_mem_cons.2 ⟨hs, forall_mem_criterionFilter ?_⟩
    cases s.produces with
    | vertices => exact hv
    | edges => exact he
    | other => exact fun c hc => by cases hc
  · rw [hideAfter_adjacent hboth hsome]
    have hincident : P (.incident d labels) := hP _ (by intro h; cases h)
    have hendpoint : P (.endpoint d.opposite) := hP _ (by intro h; cases h)
    refine List.forall_mem_append.2 ⟨?_, ?_⟩
    · exact List.forall_mem_cons.2 ⟨hincident, forall_mem_criterionFilter he⟩
    · exact List.forall_mem_cons.2 ⟨hendpoint, forall_mem_criterionFilter hv⟩

theorem forall_mem_hideOutside {l : List Step} (h : ∀ s ∈ l, P s) :
    ∀ s ∈ hideOutside vertices edges l, P s := by
  induction l with
  | nil => exact h
  | cons s l ih =>
    obtain ⟨hs, hl⟩ := List.forall_mem_cons.1 h
    rw [hideOutside]
    refine List.forall_mem_append.2 ⟨?_, ih hl⟩
    split
    · exact List.forall_mem_singleton.2 hs
    · exact forall_mem_hideAfter hP hv he hs

end Hiding

/-- A property of the steps that emit elements, and of the filters that a strategy injects, stays with
the steps of a pipeline that the strategy reshapes. -/
theorem Behaviour.forall_mem_reshape {b : Behaviour}
    (hb : ∀ c ∈ b.criteria, P (.filter c (some Strategy.subgraphName))) {p : Pipeline}
    (hp : ∀ s ∈ p.steps, P s) : ∀ s ∈ (b.reshape p).steps, P s := by
  cases b with
  | removeIdentities => exact forall_mem_removeIdentities hp
  | fuseEdgeWalks => exact forall_mem_fuseEdgeWalks (fun d labels => hP _ (by intro h; cases h)) hp
  | hideOutside vertices edges =>
    simp only [criteria, List.mem_append, Option.mem_toList] at hb
    exact forall_mem_hideOutside hP (fun c hc => hb c (.inl hc)) (fun c hc => hb c (.inr hc)) hp
  | markComputer | forbidMutation | forbidLambdas | audit => exact hp

end Reshaping

section Everywhere

variable {L : Lambda → Prop} {P : Step → Prop} (hP : HoldsOfBuilt false L P)

include hP

theorem HoldsOfBuilt.everywhere_leaf {s : Step} (hs : s.produces ≠ .other) : s.Everywhere P := by
  cases s with
  | vertices | adjacent | incident | endpoint =>
    exact hP.everywhere_of_no_lambda rfl rfl rfl fun c hc => by cases hc
  | _ => exact absurd rfl hs

/-- A property of common steps, and of the filters that a strategy injects, stays with a pipeline that
the strategy reshapes. -/
theorem Behaviour.everywhere_reshape {b : Behaviour}
    (hb : ∀ c ∈ b.criteria, (Step.filter c (some Strategy.subgraphName)).Everywhere P)
    {p : Pipeline} (hp : p.Everywhere P) : (b.reshape p).Everywhere P := by
  apply Pipeline.everywhere_iff.2
  exact b.forall_mem_reshape (fun s => hP.everywhere_leaf) hb (Pipeline.everywhere_iff.1 hp)

end Everywhere

/-- A filter writes nothing if its child does not. -/
theorem Pipeline.ReadOnly.filter {c : Pipeline} (hc : c.ReadOnly) (injectedBy : Option String) :
    (Step.filter c injectedBy).ReadOnly :=
  ⟨⟨rfl, nofun⟩, fun _ hp => List.mem_singleton.1 hp ▸ hc⟩

/-- A strategy whose criteria write nothing leaves read-only pipelines read-only. -/
theorem Behaviour.readOnly_reshape {b : Behaviour} (hb : ∀ c ∈ b.criteria, c.ReadOnly)
    {p : Pipeline} (hp : p.ReadOnly) : (b.reshape p).ReadOnly :=
  Behaviour.everywhere_reshape .keepsGraph (fun c hc => (hb c hc).filter _) hp

end GraphTraversal
