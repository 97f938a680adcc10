import GraphTraversal.Proofs.Strategy.Reshaping

/-! # What a check of all levels says

Strategies look at a pipeline level by level and leave the children of injected filters alone, and a
lambda is closed to them.  A pipeline in which these write nothing is read-only as soon as no level
holds a step that writes, and no strategy of a set brings such a step in again.
-/

namespace GraphTraversal

/-! ## Sealed pipelines -/

/-- What strategies do not see of the step writes nothing: the child of an injected filter, or the
lambda of a choice. -/
structure Step.IsSealed (s : Step) : Prop where
  injected : s.isInjected → ∀ c ∈ s.children, c.ReadOnly
  lambda : ∀ l ∈ s.lambda?, l.ReadOnly

def Pipeline.Sealed (p : Pipeline) : Prop := p.Everywhere Step.IsSealed

theorem HoldsOfBuilt.isSealed (writing : Bool) :
    HoldsOfBuilt writing Lambda.ReadOnly Step.IsSealed where
  built {s} hi _ hl := by
    refine ⟨fun h => ?_, hl⟩
    rw [hi] at h
    cases h
  lambda h := h.lambda

theorem Pipeline.ReadOnly.isSealed {p : Pipeline} (hp : p.ReadOnly) : p.Sealed := by
  induction p using Pipeline.induction with
  | step p ih =>
    have hsteps := Pipeline.everywhere_iff.1 hp
    refine Pipeline.everywhere_iff.2 fun s hs => ⟨⟨fun _ => ?_, ?_⟩, fun c hc => ?_⟩
    · exact (hsteps s hs).2
    · exact (hsteps s hs).1.lambda
    · exact ih s hs c hc ((hsteps s hs).2 c hc)

/-- A sealed pipeline without a step that writes at any of its levels is read-only. -/
theorem Pipeline.Sealed.readOnly {p : Pipeline} (hp : p.Sealed)
    (hlevels : ∀ level ∈ p.levels, ∀ s ∈ level, s.isMutating = false) : p.ReadOnly := by
  induction p using Pipeline.induction with
  | step p ih =>
    rw [p.levels_eq, List.forall_mem_cons] at hlevels
    refine Pipeline.everywhere_iff.2 fun s hs => ?_
    obtain ⟨hsealed, hbelow⟩ := Pipeline.everywhere_iff.1 hp s hs
    refine ⟨⟨hlevels.1 s hs, hsealed.lambda⟩, fun c hc => ?_⟩
    cases hi : s.isInjected with
    | true => exact hsealed.injected hi c hc
    | false =>
      refine ih s hs c hc (hbelow c hc) fun level hlevel => hlevels.2 level ?_
      rw [← Step.openChildren_eq hi] at hc
      refine List.mem_flatMap.2 ⟨s, hs, ?_⟩
      rw [s.levels_eq]
      exact List.mem_flatMap.2 ⟨c, hc, hlevel⟩

/-- An injected filter whose child writes nothing is sealed. -/
theorem Pipeline.ReadOnly.filter_isSealed {c : Pipeline} (hc : c.ReadOnly)
    (injectedBy : Option String) : (Step.filter c injectedBy).Everywhere Step.IsSealed :=
  ⟨⟨fun _ => (hc.filter injectedBy).2, nofun⟩, fun _ hp => List.mem_singleton.1 hp ▸ hc.isSealed⟩

/-! ## Sets of strategies -/

namespace Strategy

theorem applyAll_cons {s : Strategy} {p : Pipeline} (h : (s.applyTo p).failure = none)
    (l : List Strategy) :
    (applyAll (s :: l) p).failure = (applyAll l (p.mapLevels s.behaviour.reshape)).failure ∧
      (applyAll (s :: l) p).pipeline = (applyAll l (p.mapLevels s.behaviour.reshape)).pipeline := by
  simp only [applyAll, h, Option.isSome_none, Bool.false_eq_true, if_false]
  exact ⟨rfl, rfl⟩

theorem applyAll_cons_of_failure {s : Strategy} {p : Pipeline} {e : Error}
    (h : (s.applyTo p).failure = some e) (l : List Strategy) :
    applyAll (s :: l) p = s.applyTo p := by
  simp [applyAll, h]

/-- If all strategies succeed, so does the first, and so do the others on what it makes. -/
theorem passed_of_applyAll_cons {s : Strategy} {l : List Strategy} {p : Pipeline}
    (h : (applyAll (s :: l) p).failure = none) : (s.applyTo p).failure = none ∧
      (applyAll l (p.mapLevels s.behaviour.reshape)).failure = none ∧
      (applyAll (s :: l) p).pipeline = (applyAll l (p.mapLevels s.behaviour.reshape)).pipeline := by
  cases hfailure : (s.applyTo p).failure with
  | some e =>
    rw [applyAll_cons_of_failure hfailure, hfailure] at h
    cases h
  | none =>
    obtain ⟨hrest, hpipeline⟩ := applyAll_cons hfailure l
    exact ⟨rfl, hrest ▸ h, hpipeline⟩

/-- A property of common steps and of the injected filters stays with a pipeline when strategies are
applied, also if one of them fails. -/
theorem applyAll_everywhere {L : Lambda → Prop} {P : Step → Prop} (hP : HoldsOfBuilt false L P)
    {l : List Strategy}
    (hl : ∀ s ∈ l, ∀ c ∈ s.behaviour.criteria, (Step.filter c (some subgraphName)).Everywhere P)
    {p : Pipeline} (hp : p.Everywhere P) : (applyAll l p).pipeline.Everywhere P := by
  induction l generalizing p with
  | nil => exact hp
  | cons s l ih =>
    obtain ⟨hs, hl⟩ := List.forall_mem_cons.1 hl
    have hreshaped : (p.mapLevels s.behaviour.reshape).Everywhere P :=
      hp.mapLevels hP fun q hq => Behaviour.everywhere_reshape hP hs hq
    cases h : (s.applyTo p).failure with
    | some e =>
      rw [applyAll_cons_of_failure h]
      exact hreshaped
    | none =>
      rw [(applyAll_cons h l).2]
      exact ih hl hreshaped

/-- What the check for steps that write lets pass. -/
theorem readOnly_of_passed {p : Pipeline} (hp : p.Sealed)
    (h : (readOnly.applyTo p).failure = none) : p.ReadOnly := by
  apply hp.readOnly
  intro level hlevel s hs
  have hfault : readOnly.fault? level = none := List.findSome?_eq_none_iff.1 h level hlevel
  have hfind : level.find? (·.isMutating) = none :=
    Option.map_eq_none_iff.1 (Option.map_eq_none_iff.1 hfault)
  simpa using List.find?_eq_none.1 hfind s hs

/-- Strategies with the check among them leave a read-only pipeline, if all of them succeed. -/
theorem applyAll_readOnly {l : List Strategy} (hmem : readOnly ∈ l)
    (hl : ∀ s ∈ l, ∀ c ∈ s.behaviour.criteria, c.ReadOnly) {p : Pipeline} (hp : p.Sealed)
    (h : (applyAll l p).failure = none) : (applyAll l p).pipeline.ReadOnly := by
  induction l generalizing p with
  | nil => cases hmem
  | cons s l ih =>
    obtain ⟨hs, hothers⟩ := List.forall_mem_cons.1 hl
    obtain ⟨hfirst, hrest, hpipeline⟩ := passed_of_applyAll_cons h
    rw [hpipeline]
    rcases List.mem_cons.1 hmem with rfl | hmem
    · have hchecked := (readOnly_of_passed hp hfirst).mapLevels .keepsGraph fun _ =>
        Behaviour.readOnly_reshape hs
      exact applyAll_everywhere .keepsGraph (fun s hs c hc => (hothers s hs c hc).filter _) hchecked
    · refine ih hmem hothers (hp.mapLevels (.isSealed false) fun q hq => ?_) hrest
      exact Behaviour.everywhere_reshape (.isSealed false) (fun c hc => (hs c hc).filter_isSealed _) hq

end Strategy

end GraphTraversal
