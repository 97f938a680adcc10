import Mathlib.Data.List.Chain
import GraphTraversal.Proofs.Strategy.Checking
import GraphTraversal.Proofs.Strategy.Ordering
import GraphTraversal.Traversal.Basic

/-! # Strategies applied twice

Every built-in strategy brings the levels of a pipeline into a form that it leaves as it is, and the
strategies that come after it in a set keep this form.  So a set finds nothing left to do on a pipeline
that it was applied to with success.
-/

namespace GraphTraversal

/-! ## Walks across edges -/

inductive Step.IsEdgeWalk : Step → Step → Prop where
  | intro {d : Direction} (hd : d ≠ .both) (labels : List String) :
    IsEdgeWalk (.incident d labels) (.endpoint d.opposite)

theorem Step.IsEdgeWalk.isBranching {s t : Step} (h : s.IsEdgeWalk t) :
    s.isBranching = false ∧ t.isBranching = false := by
  cases h
  exact ⟨rfl, rfl⟩

theorem Step.isEdgeWalk_of_mapLevels {f : Pipeline → Pipeline} {s t : Step}
    (h : (s.mapLevels f).IsEdgeWalk (t.mapLevels f)) : s.IsEdgeWalk t := by
  rcases s.mapLevels_eq_or_isOpen f with hs | ⟨-, hs⟩
  · rcases t.mapLevels_eq_or_isOpen f with ht | ⟨-, ht⟩
    · rwa [hs, ht] at h
    · exact absurd ht.isBranching (by simp [h.isBranching.2])
  · exact absurd hs.isBranching (by simp [h.isBranching.1])

/-- The first step stays the first, unless a walk begins there. -/
theorem head?_fuseEdgeWalks (l : List Step) :
    (fuseEdgeWalks l).head? = l.head? ∨ (∃ d labels, l.head? = some (.incident d labels)) ∧
      ∃ d labels, (fuseEdgeWalks l).head? = some (.adjacent d labels) := by
  cases l using fuseEdgeWalks.fun_cases with
  | case1 d labels e l h =>
    rw [fuseEdgeWalks, if_pos h]
    exact .inr ⟨⟨d, labels, rfl⟩, d, labels, rfl⟩
  | case2 d labels e l h =>
    rw [fuseEdgeWalks, if_neg h]
    exact .inl rfl
  | case3 s l h =>
    rw [fuseEdgeWalks]
    · exact .inl rfl
    · exact h
  | case4 => exact .inl rfl

/-- No walk is left when walks have been fused. -/
theorem isChain_fuseEdgeWalks (l : List Step) :
    (fuseEdgeWalks l).IsChain fun s t => ¬s.IsEdgeWalk t := by
  induction l using fuseEdgeWalks.induct with
  | case1 d labels e l h ih =>
    rw [fuseEdgeWalks, if_pos h, List.isChain_cons]
    exact ⟨fun t _ hwalk => (by cases hwalk), ih⟩
  | case2 d labels e l h ih =>
    rw [fuseEdgeWalks, if_neg h, List.isChain_cons]
    refine ⟨fun t ht hwalk => ?_, ih⟩
    obtain rfl : Step.endpoint e = t := Option.some.inj ht
    cases hwalk with
    | intro hd => exact h ⟨hd, rfl⟩
  | case3 s l h ih =>
    rw [fuseEdgeWalks, List.isChain_cons]
    · refine ⟨fun t ht hwalk => ?_, ih⟩
      -- Fusing never brings an end of edges to the front: what stands there stood there before.
      rcases head?_fuseEdgeWalks l with hhead | ⟨-, d, labels, hhead⟩
      · rw [hhead] at ht
        cases hwalk with
        | intro hd labels =>
          obtain ⟨l, rfl⟩ := List.head?_eq_some_iff.1 ht
          exact h _ _ _ l rfl rfl
      · obtain rfl := Option.some.inj (hhead.symm.trans ht)
        cases hwalk
    · exact h
  | case4 => exact .nil

theorem fuseEdgeWalks_of_isChain {l : List Step} (h : l.IsChain fun s t => ¬s.IsEdgeWalk t) :
    fuseEdgeWalks l = l := by
  induction l using fuseEdgeWalks.induct with
  | case1 d labels e l hde ih =>
    obtain ⟨hd, rfl⟩ := hde
    exact absurd (.intro hd labels) (List.isChain_cons_cons.1 h).1
  | case2 d labels e l hde ih => rw [fuseEdgeWalks, if_neg hde, ih h.tail]
  | case3 s l hs ih =>
    rw [fuseEdgeWalks, ih h.tail]
    exact hs
  | case4 => rfl

theorem length_fuseEdgeWalks_le (l : List Step) : (fuseEdgeWalks l).length ≤ l.length := by
  induction l using fuseEdgeWalks.induct with
  | case1 d labels e l h ih =>
    rw [fuseEdgeWalks, if_pos h, List.length_cons, List.length_cons, List.length_cons]
    omega
  | case2 d labels e l h ih =>
    rw [fuseEdgeWalks, if_neg h, List.length_cons, List.length_cons]
    omega
  | case3 s l h ih =>
    rw [fuseEdgeWalks, List.length_cons, List.length_cons]
    · omega
    · exact h
  | case4 => exact le_rfl

/-! ## Hidden elements -/

/-- Every step has a filter behind it already, or none is to be put there. -/
inductive Covered (vertices edges : Option Pipeline) : List Step → Prop where
  | nil : Covered vertices edges []
  | filtered {s : Step} {l : List Step} (h : l.head?.any isCriterionFilter)
    (hl : Covered vertices edges l) : Covered vertices edges (s :: l)
  | exempt {s : Step} {l : List Step} (h : hideAfter vertices edges s = [s])
    (hl : Covered vertices edges l) : Covered vertices edges (s :: l)

section Covered

variable {vertices edges : Option Pipeline} {l : List Step}

theorem hideAfter_filter (child : Pipeline) (injectedBy : Option String) :
    hideAfter vertices edges (.filter child injectedBy) = [.filter child injectedBy] :=
  hideAfter_branching rfl

theorem eq_filter_of_isCriterionFilter {s : Step} (h : isCriterionFilter s) :
    ∃ child, s = .filter child (some Strategy.subgraphName) := by
  cases s with
  | filter child injectedBy =>
    cases injectedBy with
    | none => cases h
    | some name => exact ⟨child, by rw [eq_of_beq h]⟩
  | _ => cases h

theorem criterion_eq_none_of_hideAfter {s : Step} (hs : s.IsKept edges)
    (h : hideAfter vertices edges s = [s]) : s.produces.criterion vertices edges = none := by
  rw [hideAfter_eq hs] at h
  cases hc : s.produces.criterion vertices edges with
  | none => rfl
  | some c =>
    rw [hc] at h
    cases h

/-- A step that is not taken apart is covered by the filter for what it emits. -/
theorem Covered.cons_criterionFilter {s : Step} (hs : s.IsKept edges)
    (hl : Covered vertices edges l) : Covered vertices edges
      (s :: criterionFilter (s.produces.criterion vertices edges) ++ l) := by
  have hafter : hideAfter vertices edges s = _ := hideAfter_eq hs
  cases hc : s.produces.criterion vertices edges with
  | none =>
    rw [hc] at hafter
    exact .exempt hafter hl
  | some c => exact .filtered rfl (.exempt (hideAfter_filter c _) hl)

theorem Covered.hideAfter_append (s : Step) (hl : Covered vertices edges l) :
    Covered vertices edges (hideAfter vertices edges s ++ l) := by
  rcases s.isKept_or edges with hs | ⟨d, labels, rfl, hboth, hsome⟩
  · rw [hideAfter_eq hs]
    exact hl.cons_criterionFilter hs
  · rw [hideAfter_adjacent hboth hsome, List.append_assoc]
    have hend : (Step.endpoint d.opposite).IsKept edges := fun _ _ h => by cases h
    have hedge : (Step.incident d labels).IsKept edges := fun _ _ h => by cases h
    exact (hl.cons_criterionFilter hend).cons_criterionFilter hedge

theorem hideOutside_filter {s : Step} (hs : isCriterionFilter s) :
    hideOutside vertices edges (s :: l) = s :: hideOutside vertices edges l := by
  obtain ⟨child, rfl⟩ := eq_filter_of_isCriterionFilter hs
  rw [hideOutside, hideAfter_filter, ite_self]
  rfl

theorem head?_hideOutside (h : l.head?.any isCriterionFilter) :
    (hideOutside vertices edges l).head?.any isCriterionFilter := by
  cases l with
  | nil => cases h
  | cons s l =>
    rw [hideOutside_filter h]
    exact h

theorem covered_hideOutside (vertices edges : Option Pipeline) (l : List Step) :
    Covered vertices edges (hideOutside vertices edges l) := by
  induction l with
  | nil => exact .nil
  | cons s l ih =>
    rw [hideOutside]
    split
    case isTrue h => exact .filtered (head?_hideOutside h) ih
    case isFalse => exact ih.hideAfter_append s

namespace Covered

theorem hideOutside_eq (h : Covered vertices edges l) : hideOutside vertices edges l = l := by
  induction h with
  | nil => rfl
  | filtered h hl ih =>
    rw [hideOutside, if_pos h, ih]
    rfl
  | exempt h hl ih =>
    rw [hideOutside, h, ite_self, ih]
    rfl

theorem filter_identities (h : Covered vertices edges l) :
    Covered vertices edges (l.filter fun s => !s.isIdentity) := by
  induction h with
  | nil => exact .nil
  | @filtered s l h hl ih =>
    rw [List.filter_cons]
    split
    · refine .filtered ?_ ih
      cases l with
      | nil => cases h
      | cons t l =>
        obtain ⟨child, rfl⟩ := eq_filter_of_isCriterionFilter h
        exact h
    · exact ih
  | exempt h hl ih =>
    rw [List.filter_cons]
    split
    · exact .exempt h ih
    · exact ih

theorem removeIdentities (h : Covered vertices edges l) :
    Covered vertices edges (removeIdentities l) := by
  rw [GraphTraversal.removeIdentities]
  split
  · exact h.filter_identities
  · exact h

theorem cons_fuseEdgeWalks {s : Step} (h : Covered vertices edges (s :: l))
    (ih : Covered vertices edges l → Covered vertices edges (fuseEdgeWalks l)) :
    Covered vertices edges (s :: fuseEdgeWalks l) := by
  cases h with
  | filtered hnext hl =>
    refine .filtered ?_ (ih hl)
    rcases head?_fuseEdgeWalks l with hsame | ⟨⟨d, labels, hd⟩, -⟩
    · rwa [hsame]
    · rw [hd] at hnext
      cases hnext
  | exempt hs hl => exact .exempt hs (ih hl)

/-- A walk is fused only where there are no edges to judge, and a filter that stands behind it then
stands behind the step to neighbours. -/
theorem fuseEdgeWalks (h : Covered vertices edges l) : Covered vertices edges (fuseEdgeWalks l) := by
  induction l using fuseEdgeWalks.induct with
  | case1 d labels e l hde ih =>
    rw [GraphTraversal.fuseEdgeWalks, if_pos hde]
    cases h with
    | filtered hnext => cases hnext
    | exempt hedge hl =>
      obtain rfl : edges = none := criterion_eq_none_of_hideAfter (fun _ _ h => by cases h) hedge
      cases hl.cons_fuseEdgeWalks ih with
      | filtered hnext hl => exact .filtered hnext hl
      | exempt hend hl =>
        obtain rfl : vertices = none :=
          criterion_eq_none_of_hideAfter (fun _ _ h => by cases h) hend
        exact .exempt (hideAfter_eq fun _ _ _ => .inr rfl) hl
  | case2 d labels e l hde ih =>
    rw [GraphTraversal.fuseEdgeWalks, if_neg hde]
    exact h.cons_fuseEdgeWalks ih
  | case3 s l hs ih =>
    rw [GraphTraversal.fuseEdgeWalks]
    · exact h.cons_fuseEdgeWalks ih
    · exact hs
  | case4 => exact h

theorem map_mapLevels (h : Covered vertices edges l) (f : Pipeline → Pipeline) :
    Covered vertices edges (l.map (·.mapLevels f)) := by
  induction h with
  | nil => exact .nil
  | @filtered s l h hl ih =>
    refine .filtered ?_ ih
    cases l with
    | nil => cases h
    | cons t l =>
      obtain ⟨child, rfl⟩ := eq_filter_of_isCriterionFilter h
      exact h
  | @exempt s l h hl ih =>
    refine .exempt ?_ ih
    change hideAfter vertices edges (s.mapLevels f) = [s.mapLevels f]
    rcases s.mapLevels_eq_or_isOpen f with hs | ⟨-, hs⟩
    · rwa [hs]
    · exact hideAfter_branching hs.isBranching

end Covered

end Covered

/-! ## Identities -/

theorem isIdentity_mapLevels (f : Pipeline → Pipeline) (s : Step) :
    (s.mapLevels f).isIdentity = s.isIdentity := by
  have hopen {s : Step} (hs : s.IsOpen) : s.isIdentity = false := by
    cases s with
    | identity => cases hs.isBranching
    | _ => rfl
  rcases s.mapLevels_eq_or_isOpen f with hs | ⟨hs, hs'⟩
  · rw [hs]
  · rw [hopen hs, hopen hs']

/-- At most one step is left, or no identity. -/
theorem removeIdentities_settles (l : List Step) :
    (removeIdentities l).length ≤ 1 ∨ ∀ s ∈ removeIdentities l, s.isIdentity = false := by
  rw [removeIdentities]
  split
  · refine .inr fun s hs => ?_
    simpa using (List.mem_filter.1 hs).2
  · exact .inl (by omega)

theorem removeIdentities_eq {l : List Step} (h : l.length ≤ 1 ∨ ∀ s ∈ l, s.isIdentity = false) :
    removeIdentities l = l := by
  rw [removeIdentities]
  split
  · refine List.filter_eq_self.2 fun s hs => ?_
    rcases h with h | h
    · omega
    · rw [h s hs]
      rfl
  · rfl

/-! ## Settled levels -/

def Behaviour.Settled : Behaviour → Pipeline → Prop
  | .removeIdentities, p => p.steps.length ≤ 1 ∨ ∀ s ∈ p.steps, s.isIdentity = false
  | .fuseEdgeWalks, p => p.steps.IsChain fun s t => ¬s.IsEdgeWalk t
  | .hideOutside vertices edges, p => Covered vertices edges p.steps
  | .markComputer workers, p => p.mode = .computer workers
  | .forbidMutation, _ | .forbidLambdas, _ | .audit _, _ => True

namespace Behaviour

variable {b : Behaviour}

theorem settled_reshape (b : Behaviour) (p : Pipeline) : b.Settled (b.reshape p) := by
  cases b with
  | removeIdentities => exact removeIdentities_settles p.steps
  | fuseEdgeWalks => exact isChain_fuseEdgeWalks p.steps
  | hideOutside vertices edges => exact covered_hideOutside vertices edges p.steps
  | markComputer workers => rfl
  | forbidMutation | forbidLambdas | audit => trivial

theorem Settled.reshape_eq {p : Pipeline} (h : b.Settled p) : b.reshape p = p := by
  obtain ⟨steps, mode⟩ := p
  cases b with
  | removeIdentities => exact congr_arg (Pipeline.mk · mode) (removeIdentities_eq h)
  | fuseEdgeWalks => exact congr_arg (Pipeline.mk · mode) (fuseEdgeWalks_of_isChain h)
  | hideOutside vertices edges => exact congr_arg (Pipeline.mk · mode) h.hideOutside_eq
  | markComputer workers => exact congr_arg (Pipeline.mk steps) h.symm
  | forbidMutation | forbidLambdas | audit => rfl

/-- Whether a level is settled does not depend on what is below it. -/
theorem Settled.map_mapLevels {p : Pipeline} (h : b.Settled p) (f : Pipeline → Pipeline) :
    b.Settled ⟨p.steps.map (·.mapLevels f), p.mode⟩ := by
  cases b with
  | removeIdentities =>
    simp only [Settled, List.length_map, List.forall_mem_map, isIdentity_mapLevels]
    exact h
  | fuseEdgeWalks =>
    refine (List.isChain_map _).2 (List.IsChain.imp (fun s t hst hwalk => ?_) h)
    exact hst (Step.isEdgeWalk_of_mapLevels hwalk)
  | hideOutside vertices edges => exact Covered.map_mapLevels h f
  | markComputer workers => exact h
  | forbidMutation | forbidLambdas | audit => trivial

end Behaviour

/-! ## Settled trees -/

/-- What reshaping makes of single levels it makes of all levels. -/
theorem Pipeline.AllLevels.mapLevels {b : Behaviour} {P Q : Pipeline → Prop}
    (h : ∀ p, P p → Q (b.reshape ⟨p.steps.map (·.mapLevels b.reshape), p.mode⟩)) {p : Pipeline}
    (hp : p.AllLevels P) : (p.mapLevels b.reshape).AllLevels Q := by
  induction hp with
  | @intro p here below ih =>
    rw [p.mapLevels_eq]
    refine ⟨h p here, b.forall_mem_reshape (P := fun s => ∀ c ∈ s.openChildren, c.AllLevels Q) ?_ ?_ ?_⟩
    · intro s hs c hc
      cases s with
      | vertices | adjacent | incident | endpoint => cases hc
      | _ => exact absurd rfl hs
    · intro c _ d hd
      cases hd
    · rw [List.forall_mem_map]
      intro s hs
      rw [s.openChildren_mapLevels, List.forall_mem_map]
      exact ih s hs

namespace Behaviour

variable {b : Behaviour}

/-- Every level of a rewritten pipeline is settled. -/
theorem allLevels_settled (b : Behaviour) (p : Pipeline) :
    (p.mapLevels b.reshape).AllLevels b.Settled :=
  (Pipeline.AllLevels.of_forall (fun _ => trivial) p).mapLevels fun _ _ => b.settled_reshape _

theorem mapLevels_eq_self {p : Pipeline} (h : p.AllLevels b.Settled) : p.mapLevels b.reshape = p :=
  (h.imp fun _ hq => hq.reshape_eq).mapLevels_eq_self

end Behaviour

/-! ## Strategies that are done -/

namespace Strategy

/-- The strategy has nothing left to do on a pipeline: it changes no level and finds no fault. -/
structure Done (s : Strategy) (p : Pipeline) : Prop where
  settled : p.AllLevels s.behaviour.Settled
  passes : (s.applyTo p).failure = none

/-- A strategy that may find faults changes nothing. -/
theorem faultless_or_reshape_eq (s : Strategy) :
    (∀ level, s.fault? level = none) ∨ ∀ p, s.behaviour.reshape p = p := by
  cases hb : s.behaviour with
  | removeIdentities | fuseEdgeWalks | hideOutside | markComputer =>
    refine .inl fun level => ?_
    rw [fault?, hb]
    rfl
  | forbidMutation | forbidLambdas | audit => exact .inr fun p => rfl

theorem passes_of_faultless {s : Strategy} (h : ∀ level, s.fault? level = none) (p : Pipeline) :
    (s.applyTo p).failure = none :=
  List.findSome?_eq_none_iff.2 fun level _ => h level

theorem mapLevels_of_reshape_eq {s : Strategy} (h : ∀ p, s.behaviour.reshape p = p) (p : Pipeline) :
    p.mapLevels s.behaviour.reshape = p :=
  (Pipeline.AllLevels.of_forall h p).mapLevels_eq_self

/-- A strategy is done after it was applied with success. -/
theorem done_of_applyTo {s : Strategy} {p : Pipeline} (h : (s.applyTo p).failure = none) :
    s.Done (p.mapLevels s.behaviour.reshape) where
  settled := s.behaviour.allLevels_settled p
  passes := by
    rcases s.faultless_or_reshape_eq with hs | hs
    · exact passes_of_faultless hs _
    · rwa [mapLevels_of_reshape_eq hs]

/-- Where `s` is done it is still done after `t`. -/
def Respects (t s : Strategy) : Prop := ∀ p, s.Done p → s.Done (p.mapLevels t.behaviour.reshape)

theorem Respects.of_reshape_eq {s t : Strategy} (ht : ∀ p, t.behaviour.reshape p = p) :
    t.Respects s := by
  intro p hp
  rwa [mapLevels_of_reshape_eq ht]

theorem Respects.of_settled {s t : Strategy} (hs : ∀ level, s.fault? level = none)
    (h : ∀ p, s.behaviour.Settled p → s.behaviour.Settled (t.behaviour.reshape p)) :
    t.Respects s := by
  intro p hp
  refine ⟨hp.settled.mapLevels fun q hq => ?_, passes_of_faultless hs _⟩
  exact h _ (hq.map_mapLevels _)

/-! ## Lists of strategies -/

theorem Done.applyAll {s : Strategy} {l : List Strategy} (hl : ∀ t ∈ l, t.Respects s) {p : Pipeline}
    (hp : s.Done p) : s.Done (applyAll l p).pipeline := by
  induction l generalizing p with
  | nil => exact hp
  | cons t l ih =>
    obtain ⟨ht, hl⟩ := List.forall_mem_cons.1 hl
    cases h : (t.applyTo p).failure with
    | some e =>
      rw [applyAll_cons_of_failure h]
      exact ht p hp
    | none =>
      rw [(applyAll_cons h l).2]
      exact ih hl (ht p hp)

/-- If later strategies respect earlier ones, all are done after all were applied with success. -/
theorem done_of_applyAll {l : List Strategy} (hl : l.Pairwise fun s t => t.Respects s) {p : Pipeline}
    (h : (applyAll l p).failure = none) : ∀ s ∈ l, s.Done (applyAll l p).pipeline := by
  induction l generalizing p with
  | nil => exact fun s hs => by cases hs
  | cons s l ih =>
    obtain ⟨hs, hl⟩ := List.pairwise_cons.1 hl
    obtain ⟨hfirst, hrest, hpipeline⟩ := passed_of_applyAll_cons h
    rw [hpipeline]
    exact List.forall_mem_cons.2 ⟨(done_of_applyTo hfirst).applyAll hs, ih hl hrest⟩

/-- Strategies that are done succeed and change nothing. -/
theorem applyAll_of_done {l : List Strategy} {p : Pipeline} (h : ∀ s ∈ l, s.Done p) :
    (applyAll l p).failure = none ∧ (applyAll l p).pipeline = p := by
  induction l with
  | nil => exact ⟨rfl, rfl⟩
  | cons s l ih =>
    obtain ⟨hs, hl⟩ := List.forall_mem_cons.1 h
    obtain ⟨hrest, hpipeline⟩ := applyAll_cons hs.passes l
    rw [hrest, hpipeline, Behaviour.mapLevels_eq_self hs.settled]
    exact ih hl

/-! ## Built-in strategies -/

inductive BuiltIn : Strategy → Prop where
  | identityRemoval : BuiltIn .identityRemoval
  | incidentToAdjacent : BuiltIn .incidentToAdjacent
  | subgraph (vertices edges : Option Criterion) : BuiltIn (.subgraph vertices edges)
  | vertexProgram (workers : Option Nat) : BuiltIn (.vertexProgram workers)
  | readOnly : BuiltIn .readOnly
  | lambdaRestriction : BuiltIn .lambdaRestriction

/-- Of two built-in strategies in order the second keeps what the first has done. -/
theorem BuiltIn.respects {s t : Strategy} (hs : s.BuiltIn) (ht : t.BuiltIn) (hname : s.name ≠ t.name)
    (horder : ¬t.MustPrecede s) : t.Respects s := by
  -- One name, the categories and the demand of the fusion exclude the pairs that would not commute
  -- with being settled, such as identities dropped after walks were fused.
  cases ht with
  | readOnly | lambdaRestriction => exact .of_reshape_eq fun _ => rfl
  | vertexProgram workers =>
    cases hs with
    | vertexProgram => exact absurd rfl hname
    | readOnly | lambdaRestriction => exact absurd (.category (of_decide_eq_true rfl)) horder
    | _ => exact .of_settled (fun _ => rfl) fun _ h => h
  | subgraph vertices edges =>
    cases hs with
    | subgraph => exact absurd rfl hname
    | vertexProgram => exact .of_settled (fun _ => rfl) fun _ h => h
    | _ => exact absurd (.category (of_decide_eq_true rfl)) horder
  | identityRemoval =>
    cases hs with
    | identityRemoval => exact absurd rfl hname
    | incidentToAdjacent => exact absurd (.prior List.mem_cons_self) horder
    | subgraph => exact .of_settled (fun _ => rfl) fun _ h => Covered.removeIdentities h
    | vertexProgram => exact .of_settled (fun _ => rfl) fun _ h => h
    | readOnly | lambdaRestriction => exact absurd (.category (of_decide_eq_true rfl)) horder
  | incidentToAdjacent =>
    cases hs with
    | identityRemoval =>
      refine .of_settled (fun _ => rfl) fun p h => ?_
      exact h.imp (length_fuseEdgeWalks_le p.steps).trans (forall_mem_fuseEdgeWalks fun _ _ => rfl)
    | incidentToAdjacent => exact absurd rfl hname
    | subgraph => exact .of_settled (fun _ => rfl) fun _ h => Covered.fuseEdgeWalks h
    | vertexProgram => exact .of_settled (fun _ => rfl) fun _ h => h
    | readOnly | lambdaRestriction => exact absurd (.category (of_decide_eq_true rfl)) horder

end Strategy

namespace StrategySet

theorem Valid.pairwise_respects {set : StrategySet} (h : set.Valid)
    (hset : ∀ s ∈ set.members, s.BuiltIn) : set.members.Pairwise fun s t => t.Respects s := by
  have hnames : set.members.Pairwise fun s t => s.name ≠ t.name := List.pairwise_map.1 h.names
  rw [List.pairwise_iff_getElem] at hnames ⊢
  intro i j hi hj hij
  refine (hset _ (List.getElem_mem hi)).respects (hset _ (List.getElem_mem hj)) (hnames i j hi hj hij) ?_
  intro hdemand
  exact absurd (h.inOrder j i hj hi hdemand) (Nat.lt_asymm hij)

theorem builtIn_performAll {init : StrategySet} (hinit : init = .empty ∨ init = .standard)
    {calls : List Call} (hcalls : ∀ c ∈ calls, ∀ s, c.added? = some s → s.BuiltIn) :
    ∀ s ∈ (performAll calls init).members, s.BuiltIn := by
  intro s hs
  rcases mem_performAll hs with hs | ⟨c, hc, hadded⟩
  · rcases hinit with rfl | rfl
    · cases hs
    · rcases List.mem_pair.1 hs with rfl | rfl
      · exact .identityRemoval
      · exact .incidentToAdjacent
  · exact hcalls c hc s hadded

/-- A set of built-in strategies that was applied with success succeeds when it is applied again, and
leaves the pipeline as it is: its steps, all that is below them, and its mode. -/
theorem apply_idempotent {init : StrategySet} (hinit : init = .empty ∨ init = .standard)
    {calls : List Call} (hcalls : ∀ c ∈ calls, ∀ s, c.added? = some s → s.BuiltIn) {p : Pipeline}
    (h : ((performAll calls init).apply p).failure = none) :
    let set := performAll calls init
    let q := (set.apply p).pipeline
    (set.apply q).failure = none ∧ (set.apply q).pipeline = q := by
  have hrespects := (valid_performAll hinit calls).pairwise_respects (builtIn_performAll hinit hcalls)
  exact Strategy.applyAll_of_done (Strategy.done_of_applyAll hrespects h)

/-- Within the child the criterion for edges takes a step apart and an identity is dropped; the second
application finds the filters and leaves all as it is. -/
theorem apply_again_keeps_filters :
    let knows := (Traversal.start.hasLabel [.literal "knows"]).criterion
    let set := performAll [.add .readOnly, .add (.subgraph none (some knows)),
      .add (.vertexProgram (some 2)), .remove "IncidentToAdjacentStrategy"] .standard
    let child : Pipeline := { steps := [.adjacent .outward [], .identity, .incident .inward []] }
    let p : Pipeline := { steps := [.vertices [], .identity, .filter child none] }
    let q := (set.apply p).pipeline
    q.mode = .computer (some 2) ∧
      q.levels.map (·.map (·.name)) =
        [["V", "filter"], ["outE", "filter", "inV", "inE", "filter"]] ∧
      (set.apply q).failure = none ∧ (set.apply q).pipeline = q := by
  refine ⟨rfl, rfl, apply_idempotent (.inr rfl) ?_ rfl⟩
  intro c hc s hs
  simp only [List.mem_cons, List.not_mem_nil, or_false] at hc
  rcases hc with rfl | rfl | rfl | rfl
  · obtain rfl := Option.some.inj hs
    exact .readOnly
  · obtain rfl := Option.some.inj hs
    exact .subgraph none _
  · obtain rfl := Option.some.inj hs
    exact .vertexProgram _
  · cases hs

end StrategySet

end GraphTraversal
