import GraphTraversal.Proofs.Strategy.Idempotence
import GraphTraversal.Proofs.Traversal.Building

/-! # Verdicts on rewritten traversals

A check comes after strategies that have rewritten the traversal at every level.  They put in and take
out only steps that emit elements, identities, and filters of their own, below which no strategy looks.
All other steps last: they keep their order, their names and the places of their children.  So what a
check says of lasting steps it says of the traversal as it was built.
-/

namespace GraphTraversal

/-! ## The order of steps -/

theorem Pipeline.height_lt {p c : Pipeline} {s : Step} (hs : s ∈ p.steps) (hc : c ∈ s.children) :
    c.height < p.height := by
  have hheight : s.height ≤ p.height := Pipeline.height_le_iff.1 le_rfl s hs
  have hpos := s.height_pos
  have hchild : c.height ≤ s.height - 1 :=
    Step.height_le_succ_iff.1 (Nat.sub_add_cancel hpos).ge c hc
  omega

/-- The steps of a pipeline from left to right, then the children of these steps in order, each in the
same way. -/
def Pipeline.preorder (p : Pipeline) : List Step :=
  p.steps ++ p.steps.attach.flatMap fun ⟨s, _⟩ => s.children.attach.flatMap fun ⟨c, _⟩ => c.preorder
termination_by p.height
decreasing_by exact Pipeline.height_lt ‹_› ‹_›

theorem Pipeline.preorder_eq (p : Pipeline) :
    p.preorder = p.steps ++ (p.steps.flatMap (·.children)).flatMap (·.preorder) := by
  rw [preorder, List.flatMap_assoc]
  simp

/-- A property holds everywhere if it holds of all steps in their order. -/
theorem Pipeline.everywhere_iff_preorder {P : Step → Prop} {p : Pipeline} :
    p.Everywhere P ↔ ∀ s ∈ p.preorder, P s := by
  induction p using Pipeline.induction with
  | step p ih =>
    rw [Pipeline.everywhere_iff, p.preorder_eq, List.forall_mem_append]
    simp only [Step.Everywhere, List.mem_flatMap]
    constructor
    · rintro h
      refine ⟨fun s hs => (h s hs).1, ?_⟩
      rintro t ⟨c, ⟨s, hs, hc⟩, ht⟩
      exact (ih s hs c hc).1 ((h s hs).2 c hc) t ht
    · rintro ⟨hhere, hbelow⟩ s hs
      exact ⟨hhere s hs, fun c hc => (ih s hs c hc).2 fun t ht => hbelow t ⟨c, ⟨s, hs, hc⟩, ht⟩⟩

/-- The steps that strategies see, in the order in which a check goes through them. -/
def Pipeline.seen (p : Pipeline) : List Step := p.levels.flatten

theorem Pipeline.seen_eq (p : Pipeline) :
    p.seen = p.steps ++ (p.steps.flatMap (·.openChildren)).flatMap (·.seen) := by
  have hstep (s : Step) : s.levels.flatten = s.openChildren.flatMap (·.seen) := by
    rw [s.levels_eq, List.flatten_eq_flatMap, List.flatMap_assoc]
    simp only [seen, List.flatten_eq_flatMap]
  rw [seen, p.levels_eq, List.flatten_cons, List.flatten_eq_flatMap, List.flatMap_assoc,
    List.flatMap_assoc]
  simp only [← List.flatten_eq_flatMap, hstep]

/-- Where no strategy has put a filter, strategies see all steps. -/
theorem Pipeline.seen_eq_preorder {p : Pipeline} (hp : p.Everywhere (·.isInjected = false)) :
    p.seen = p.preorder := by
  induction p using Pipeline.induction with
  | step p ih =>
    have hopen := Pipeline.everywhere_iff.1 hp
    have hchildren : p.steps.flatMap (·.openChildren) = p.steps.flatMap (·.children) :=
      List.flatMap_congr fun s hs => Step.openChildren_eq (hopen s hs).1
    rw [p.seen_eq, p.preorder_eq, hchildren]
    refine congr_arg (p.steps ++ ·) (List.flatMap_congr fun c hc => ?_)
    obtain ⟨s, hs, hc⟩ := List.mem_flatMap.1 hc
    exact ih s hs c hc ((hopen s hs).2 c hc)

/-! ## Steps that last -/

def Step.isLasting (s : Step) : Bool := s.produces = .other && !s.isIdentity && !s.isInjected

theorem filter_removeIdentities (l : List Step) :
    (removeIdentities l).filter (·.isLasting) = l.filter (·.isLasting) := by
  rw [removeIdentities]
  split
  · rw [List.filter_filter]
    refine List.filter_congr fun s _ => ?_
    cases hs : s.isIdentity <;> simp [Step.isLasting, hs]
  · rfl

theorem filter_fuseEdgeWalks (l : List Step) :
    (fuseEdgeWalks l).filter (·.isLasting) = l.filter (·.isLasting) := by
  induction l using fuseEdgeWalks.induct with
  | case1 d labels e l hde ih =>
    rw [fuseEdgeWalks, if_pos hde]
    exact ih
  | case2 d labels e l hde ih =>
    rw [fuseEdgeWalks, if_neg hde]
    exact ih
  | case3 s l hs ih =>
    rw [fuseEdgeWalks]
    · rw [List.filter_cons, List.filter_cons, ih]
    · exact hs
  | case4 => rfl

section Hiding

variable (vertices edges : Option Pipeline)

theorem filter_criterionFilter (criterion : Option Pipeline) :
    (criterionFilter criterion).filter (·.isLasting) = [] := by
  cases criterion <;> rfl

theorem filter_hideAfter (s : Step) :
    (hideAfter vertices edges s).filter (·.isLasting) = [s].filter (·.isLasting) := by
  rcases s.isKept_or edges with hkept | ⟨d, labels, rfl, hboth, hsome⟩
  · rw [hideAfter_eq hkept, ← List.singleton_append, List.filter_append, filter_criterionFilter,
      List.append_nil]
  · have hincident : (Step.incident d labels).isLasting = false := rfl
    have hendpoint : (Step.endpoint d.opposite).isLasting = false := rfl
    rw [hideAfter_adjacent hboth hsome, List.filter_append,
      List.filter_cons_of_neg (by simp [hincident]), List.filter_cons_of_neg (by simp [hendpoint]),
      filter_criterionFilter, filter_criterionFilter]
    rfl

theorem filter_hideOutside (l : List Step) :
    (hideOutside vertices edges l).filter (·.isLasting) = l.filter (·.isLasting) := by
  induction l with
  | nil => rfl
  | cons s l ih =>
    have hhere : (if l.head?.any isCriterionFilter then [s] else hideAfter vertices edges s).filter
        (·.isLasting) = [s].filter (·.isLasting) := by
      split
      · rfl
      · exact filter_hideAfter vertices edges s
    rw [hideOutside, List.filter_append, hhere, ih, ← List.filter_append, List.singleton_append]

end Hiding

/-- A strategy that reshapes a pipeline leaves the lasting steps as they are, in their order. -/
theorem Behaviour.filter_reshape (b : Behaviour) (p : Pipeline) :
    (b.reshape p).steps.filter (·.isLasting) = p.steps.filter (·.isLasting) := by
  cases b with
  | removeIdentities => exact filter_removeIdentities p.steps
  | fuseEdgeWalks => exact filter_fuseEdgeWalks p.steps
  | hideOutside vertices edges => exact filter_hideOutside vertices edges p.steps
  | markComputer | forbidMutation | forbidLambdas | audit => rfl

theorem Step.openChildren_of_not_isLasting {s : Step} (h : s.isLasting = false) :
    s.openChildren = [] := by
  cases s with
  | filter child injectedBy =>
    cases injectedBy with
    | none => cases h
    | some name => rfl
  | and | «repeat» | choose | groupCount | project | order => cases h
  | _ => rfl

theorem flatMap_openChildren_filter (l : List Step) :
    (l.filter (·.isLasting)).flatMap (·.openChildren) = l.flatMap (·.openChildren) := by
  induction l with
  | nil => rfl
  | cons s l ih =>
    cases h : s.isLasting with
    | true => rw [List.filter_cons_of_pos h, List.flatMap_cons, List.flatMap_cons, ih]
    | false =>
      rw [List.filter_cons_of_neg (by simp [h]), ih, List.flatMap_cons,
        Step.openChildren_of_not_isLasting h, List.nil_append]

/-! ## Offending steps -/

theorem Step.name_mapLevels (f : Pipeline → Pipeline) (s : Step) : (s.mapLevels f).name = s.name := by
  rw [s.mapLevels_eq_mapOpen]
  cases s with
  | filter child injectedBy => cases injectedBy <;> rfl
  | _ => rfl

/-- A property of lasting steps that does not depend on what is below a step. -/
structure Step.Intrinsic (P : Step → Bool) : Prop where
  isLasting : ∀ s, P s → s.isLasting
  mapLevels : ∀ f s, P (s.mapLevels f) = P s

theorem Step.intrinsic_isMutating : Step.Intrinsic (·.isMutating) where
  isLasting s h := by
    cases s with
    | addVertex | property | drop => rfl
    | _ => cases h
  mapLevels f s := by
    rw [s.mapLevels_eq_mapOpen]
    cases s with
    | filter child injectedBy => cases injectedBy <;> rfl
    | _ => rfl

theorem Step.intrinsic_usesLambda : Step.Intrinsic (·.usesLambda) where
  isLasting s h := by
    cases s with
    | choose => rfl
    | _ => cases h
  mapLevels f s := by
    rw [s.mapLevels_eq_mapOpen]
    cases s with
    | filter child injectedBy => cases injectedBy <;> rfl
    | choose decision phase => cases decision <;> rfl
    | _ => rfl

/-- The names of the steps with a property among those that strategies see, in order. -/
def Pipeline.offenders (P : Step → Bool) (p : Pipeline) : List String :=
  (p.seen.filter P).map (·.name)

section Offenders

variable {P : Step → Bool}

theorem Pipeline.offenders_eq (p : Pipeline) : p.offenders P =
    (p.steps.filter P).map (·.name) ++
      (p.steps.flatMap (·.openChildren)).flatMap (·.offenders P) := by
  simp only [offenders, p.seen_eq, List.filter_append, List.map_append, List.filter_flatMap,
    List.map_flatMap]

variable (hP : Step.Intrinsic P)

include hP

theorem Step.Intrinsic.filter_filter (l : List Step) :
    (l.filter (·.isLasting)).filter P = l.filter P := by
  rw [List.filter_filter]
  refine List.filter_congr fun s _ => ?_
  cases h : P s with
  | false => rfl
  | true => exact hP.isLasting s h

/-- A strategy that reshapes a pipeline at all levels brings no offending step in, takes none out, and
leaves their order. -/
theorem Step.Intrinsic.offenders_mapLevels (b : Behaviour) (p : Pipeline) :
    (p.mapLevels b.reshape).offenders P = p.offenders P := by
  induction p using Pipeline.induction with
  | step p ih =>
    -- offending steps and steps with open children both last, so one level keeps its share
    have hreshape (q : Pipeline) : (b.reshape q).offenders P = q.offenders P := by
      rw [Pipeline.offenders_eq, q.offenders_eq, ← hP.filter_filter, ← flatMap_openChildren_filter,
        b.filter_reshape, hP.filter_filter, flatMap_openChildren_filter]
    have hhere : ((p.steps.map (·.mapLevels b.reshape)).filter P).map (·.name) =
        (p.steps.filter P).map (·.name) := by
      simp [List.filter_map, Function.comp_def, hP.mapLevels, Step.name_mapLevels]
    have hbelow : (p.steps.flatMap (·.openChildren)).flatMap
        (fun c => (c.mapLevels b.reshape).offenders P) =
        (p.steps.flatMap (·.openChildren)).flatMap (·.offenders P) := by
      refine List.flatMap_congr fun c hc => ?_
      obtain ⟨s, hs, hc⟩ := List.mem_flatMap.1 hc
      exact ih s hs c (s.openChildren_subset hc)
    rw [p.mapLevels_eq, hreshape, Pipeline.offenders_eq, p.offenders_eq, hhere, ← hbelow]
    simp only [List.flatMap_map, Step.openChildren_mapLevels, List.flatMap_assoc]

end Offenders

/-! ## Checks -/

namespace Strategy

/-- The strategy fails with the name of the first step that has the property. -/
def Rejects (s : Strategy) (P : Step → Bool) (e : String → Error) : Prop :=
  ∀ level, s.fault? level = (level.find? P).map fun t => e t.name

theorem rejects_readOnly :
    readOnly.Rejects (·.isMutating) (.verification "ReadOnlyStrategy" <| .mutates ·) :=
  fun _ => Option.map_map ..

theorem rejects_lambdaRestriction : lambdaRestriction.Rejects (·.usesLambda)
    (.verification "LambdaRestrictionStrategy" <| .usesLambda ·) :=
  fun _ => Option.map_map ..

section Verdict

variable {check : Strategy} {P : Step → Bool} {e : String → Error} (h : check.Rejects P e)

include h

theorem Rejects.failure_applyTo (p : Pipeline) :
    (check.applyTo p).failure = (p.offenders P).head?.map e := by
  have hfault : check.fault? = fun level => (level.find? P).map fun t => e t.name := funext h
  rw [Pipeline.offenders, List.head?_map, List.head?_filter, Pipeline.seen, List.find?_flatten,
    Option.map_map]
  show p.levels.findSome? check.fault? = _
  rw [hfault]
  exact (List.map_findSome? ..).symm

theorem Rejects.passes_applyAll (hP : Step.Intrinsic P) {l : List Strategy}
    (hl : ∀ s ∈ l, s = check ∨ ∀ level, s.fault? level = none) {p : Pipeline}
    (hp : p.offenders P = []) : (applyAll l p).failure = none := by
  induction l generalizing p with
  | nil => rfl
  | cons s l ih =>
    obtain ⟨hs, hl⟩ := List.forall_mem_cons.1 hl
    have hpasses : (s.applyTo p).failure = none := by
      rcases hs with rfl | hs
      · rw [h.failure_applyTo, hp]
        rfl
      · exact passes_of_faultless hs p
    rw [(applyAll_cons hpasses l).1]
    exact ih hl ((hP.offenders_mapLevels s.behaviour p).trans hp)

/-- Among strategies that never fail, the check says what it would say of the pipeline as it was. -/
theorem Rejects.failure_applyAll (hP : Step.Intrinsic P) {l : List Strategy} (hmem : check ∈ l)
    (hl : ∀ s ∈ l, s = check ∨ ∀ level, s.fault? level = none) (p : Pipeline) :
    (applyAll l p).failure = (p.offenders P).head?.map e := by
  induction l generalizing p with
  | nil => cases hmem
  | cons s l ih =>
    obtain ⟨hs, hothers⟩ := List.forall_mem_cons.1 hl
    by_cases hcheck : s = check
    · subst hcheck
      have hverdict := h.failure_applyTo p
      cases hp : p.offenders P with
      | nil => exact h.passes_applyAll hP hl hp
      | cons name names =>
        rw [hp] at hverdict
        rw [applyAll_cons_of_failure hverdict, hverdict]
    · have hmem : check ∈ l := (List.mem_cons.1 hmem).resolve_left (Ne.symm hcheck)
      rw [(applyAll_cons (passes_of_faultless (hs.resolve_left hcheck) p) l).1, ih hmem hothers,
        hP.offenders_mapLevels]

end Verdict

/-- Only the two checks ever fail. -/
theorem BuiltIn.faultless {s : Strategy} (hs : s.BuiltIn) (hreadOnly : s ≠ .readOnly)
    (hlambda : s ≠ .lambdaRestriction) (level : List Step) : s.fault? level = none := by
  cases hs with
  | readOnly => exact absurd rfl hreadOnly
  | lambdaRestriction => exact absurd rfl hlambda
  | _ => rfl

end Strategy

/-! ## Traversals built clause by clause -/

def Step.Writes (s : Step) : Prop :=
  (∃ text, s = .addVertex text) ∨ (∃ key value, s = .property key value) ∨ s = .drop

def Step.HoldsLambda (s : Step) : Prop := ∃ test yes no phase, s = .choose (.lambda test yes no) phase

theorem Step.isMutating_iff (s : Step) : s.isMutating ↔ s.Writes := by
  cases s <;> simp [isMutating, Writes]

theorem Step.usesLambda_iff (s : Step) : s.usesLambda ↔ s.HoldsLambda := by
  cases s with
  | choose decision phase => cases decision <;> simp [usesLambda, HoldsLambda]
  | _ => simp [usesLambda, HoldsLambda]

/-- What is to be said of a pipeline whose steps are not to have the property: it passes if none of them
has it, and else the first that has is named. -/
structure Pipeline.Verdict (p : Pipeline) (Q : Step → Prop) (e : String → Error)
    (failure : Option Error) : Prop where
  passes : failure = none ↔ p.Everywhere fun s => ¬Q s
  names : ∀ err, failure = some err → ∃ before s after, p.preorder = before ++ s :: after ∧
    (∀ t ∈ before, ¬Q t) ∧ Q s ∧ err = e s.name

theorem Pipeline.verdict_find? {p : Pipeline} {P : Step → Bool} {Q : Step → Prop}
    (hQ : ∀ s, P s ↔ Q s) (e : String → Error) :
    p.Verdict Q e ((p.preorder.find? P).map fun s => e s.name) where
  passes := by
    rw [Option.map_eq_none_iff, List.find?_eq_none, everywhere_iff_preorder]
    simp only [hQ]
  names err herr := by
    obtain ⟨s, hs, rfl⟩ := Option.map_eq_some_iff.1 herr
    obtain ⟨hfound, before, after, heq, hbefore⟩ := List.find?_eq_some_iff_append.1 hs
    refine ⟨before, s, after, heq, fun t ht => ?_, (hQ s).1 hfound, rfl⟩
    rw [← hQ]
    simpa using hbefore t ht

/-- A check among strategies that never fail judges a traversal as it was built. -/
theorem Strategy.Rejects.verdict_of_extend {check : Strategy} {P : Step → Bool} {e : String → Error}
    (h : check.Rejects P e) (hP : Step.Intrinsic P) {Q : Step → Prop} (hQ : ∀ s, P s ↔ Q s)
    {code : Bytecode} {clauses : List Clause} {t : Traversal}
    (ht : ({ bytecode := code } : Traversal).extend clauses = .ok t) {l : List Strategy}
    (hmem : check ∈ l) (hl : ∀ s ∈ l, s = check ∨ ∀ level, s.fault? level = none) :
    t.pipeline.Verdict Q e (applyAll l t.pipeline).failure := by
  have hbuilt : HoldsOfBuilt true (fun _ => True) (·.isInjected = false) :=
    ⟨fun hs _ _ => hs, fun _ _ _ => trivial⟩
  have hopen : t.pipeline.Everywhere (·.isInjected = false) :=
    Clause.extendAll_everywhere hbuilt clauses (fun _ => rfl) (fun _ _ => trivial)
      (Pipeline.everywhere_nil _) ht
  rw [h.failure_applyAll hP hmem hl, Pipeline.offenders, Pipeline.seen_eq_preorder hopen,
    List.head?_map, List.head?_filter, Option.map_map]
  exact Pipeline.verdict_find? hQ e

namespace StrategySet

/-- Of built-in strategies with one of the two checks among them, whatever the others do to a traversal,
the set fails exactly if a step of the traversal as it was built offends, in the root or in a child at any
depth.  The error names the first such step. -/
theorem apply_judges_as_built {code : Bytecode} {clauses : List Clause} {t : Traversal}
    (ht : ({ bytecode := code } : Traversal).extend clauses = .ok t) {set : StrategySet}
    (hset : ∀ s ∈ set.members, s.BuiltIn) :
    (.readOnly ∈ set.members → .lambdaRestriction ∉ set.members →
      t.pipeline.Verdict Step.Writes (.verification "ReadOnlyStrategy" <| .mutates ·)
        (set.apply t.pipeline).failure) ∧
    (.lambdaRestriction ∈ set.members → .readOnly ∉ set.members →
      t.pipeline.Verdict Step.HoldsLambda (.verification "LambdaRestrictionStrategy" <| .usesLambda ·)
        (set.apply t.pipeline).failure) := by
  constructor
  · intro hmem hother
    refine Strategy.rejects_readOnly.verdict_of_extend Step.intrinsic_isMutating Step.isMutating_iff ht
      hmem fun s hs => ?_
    refine or_iff_not_imp_left.2 fun hne => (hset s hs).faultless hne ?_
    exact ne_of_mem_of_not_mem hs hother
  · intro hmem hother
    refine Strategy.rejects_lambdaRestriction.verdict_of_extend Step.intrinsic_usesLambda
      Step.usesLambda_iff ht hmem fun s hs => ?_
    refine or_iff_not_imp_left.2 fun hne => (hset s hs).faultless ?_ hne
    exact ne_of_mem_of_not_mem hs hother

/-- The criterion takes the step to neighbours apart, and the identity goes.  The filter stands before
the last step of the root, but its child comes after that step, which is named. -/
theorem apply_names_first_offender :
    let knows := (Traversal.start.hasLabel [.literal "knows"]).criterion
    let set : StrategySet := ⟨[.subgraph none (some knows), .identityRemoval, .readOnly]⟩
    let clauses : List Clause := [.vertices [], .adjacent .outward [], .identity, .filter [.drop],
      .property "seen" (.boolean true)]
    ∃ t : Traversal, Traversal.ofClauses clauses = .ok t ∧
      (set.apply t.pipeline).pipeline.levels.map (·.map (·.name)) =
        [["V", "outE", "filter", "inV", "filter", "property"], ["drop"]] ∧
      (set.apply t.pipeline).failure =
        some (.verification "ReadOnlyStrategy" (.mutates "property")) ∧
      ∃ before s after, t.pipeline.preorder = before ++ s :: after ∧ s.name = "property" ∧
        ∀ u ∈ before, ¬u.Writes := by
  intro knows set clauses
  have hset : ∀ s ∈ set.members, s.BuiltIn := by
    simp [set, Strategy.BuiltIn.readOnly, Strategy.BuiltIn.subgraph, Strategy.BuiltIn.identityRemoval]
  have hnames : Strategy.lambdaRestriction.name ∉ set.names := by decide
  have hother : Strategy.lambdaRestriction ∉ set.members := fun hmem =>
    hnames (List.mem_map_of_mem hmem)
  have hbuilt : Traversal.ofClauses clauses = .ok _ := rfl
  have hverdict := (apply_judges_as_built hbuilt hset).1 (by simp [set]) hother
  obtain ⟨before, s, after, heq, hbefore, -, hname⟩ := hverdict.names _ rfl
  refine ⟨_, hbuilt, by decide +kernel, rfl, before, s, after, heq, ?_, hbefore⟩
  rw [Error.verification.injEq, Violation.mutates.injEq] at hname
  exact hname.2.symm

end StrategySet

end GraphTraversal
