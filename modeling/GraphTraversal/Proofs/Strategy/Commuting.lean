import GraphTraversal.Proofs.Strategy.Idempotence
import GraphTraversal.Proofs.Strategy.Registration

/-! # Sets that hold the same strategies

Two sets with the same strategies can differ in the order of those that ask nothing of each other.  If
any two of these may be applied either way round, the sets do the same: the strategy that one set applies
first moves to the front of the other, past strategies that it commutes with.  Two built-in strategies
of this kind both decorate, and then one sees to the steps and the other to the mode, or both check.
-/

namespace GraphTraversal

def Report.passed? (r : Report) : Option Pipeline :=
  match r.failure with
  | none => some r.pipeline
  | some _ => none

theorem Report.passed?_eq_iff {r r' : Report} : r.passed? = r'.passed? ↔
    (r.failure = none ↔ r'.failure = none) ∧ (r.failure = none → r.pipeline = r'.pipeline) := by
  obtain ⟨p, failure, visits⟩ := r
  obtain ⟨p', failure', visits'⟩ := r'
  cases failure <;> cases failure' <;> simp [passed?]

/-! ## Rewriting in two ways -/

def Pipeline.mapBelow (f : Pipeline → Pipeline) (p : Pipeline) : Pipeline :=
  ⟨p.steps.map (·.mapLevels f), p.mode⟩

/-- `f` looks at one level only, and takes what is below it along as it is. -/
def Shallow (f : Pipeline → Pipeline) : Prop :=
  ∀ (g : Pipeline → Pipeline) (p : Pipeline), f (p.mapBelow g) = (f p).mapBelow g

section Commuting

variable {f g : Pipeline → Pipeline}

theorem Step.mapLevels_comm {s : Step}
    (h : ∀ c ∈ s.openChildren, (c.mapLevels f).mapLevels g = (c.mapLevels g).mapLevels f) :
    (s.mapLevels f).mapLevels g = (s.mapLevels g).mapLevels f := by
  simp only [Step.mapLevels_eq_mapOpen, Step.mapOpen_mapOpen]
  exact Step.mapOpen_congr h

/-- Rewritings that commute on one level commute on all. -/
theorem Pipeline.mapLevels_comm (hf : Shallow f) (hg : Shallow g) (h : ∀ p, g (f p) = f (g p))
    (p : Pipeline) : (p.mapLevels f).mapLevels g = (p.mapLevels g).mapLevels f := by
  induction p using Pipeline.induction with
  | step p ih =>
    have hbelow : (p.mapBelow f).mapBelow g = (p.mapBelow g).mapBelow f := by
      simp only [mapBelow, List.map_map]
      refine congr_arg (Pipeline.mk · p.mode) (List.map_congr_left fun s hs => ?_)
      exact Step.mapLevels_comm fun c hc => ih s hs c (s.openChildren_subset hc)
    calc (p.mapLevels f).mapLevels g = g ((f (p.mapBelow f)).mapBelow g) := by
          rw [Pipeline.mapLevels_eq, p.mapLevels_eq]
          rfl
      _ = f (g ((p.mapBelow g).mapBelow f)) := by rw [← hf, h, hbelow]
      _ = (p.mapLevels g).mapLevels f := by
          rw [hg, Pipeline.mapLevels_eq f, p.mapLevels_eq]
          rfl

end Commuting

theorem map_criterionFilter (f : Pipeline → Pipeline) (criterion : Option Pipeline) :
    (criterionFilter criterion).map (·.mapLevels f) = criterionFilter criterion := by
  cases criterion <;> rfl

theorem hideAfter_mapLevels (vertices edges : Option Pipeline) (f : Pipeline → Pipeline) (s : Step) :
    hideAfter vertices edges (s.mapLevels f) = (hideAfter vertices edges s).map (·.mapLevels f) := by
  cases hs : s.isBranching with
  | true =>
    rw [hideAfter_branching hs]
    rcases s.mapLevels_eq_or_isOpen f with hsame | ⟨-, hopen⟩
    · rw [hsame, hideAfter_branching hs, List.map_singleton, hsame]
    · exact hideAfter_branching hopen.isBranching
  | false =>
    rw [s.mapLevels_leaf f hs]
    rcases s.isKept_or edges with hkept | ⟨d, labels, rfl, hboth, hsome⟩
    · rw [hideAfter_eq hkept, List.map_cons, s.mapLevels_leaf f hs, map_criterionFilter]
    · simp only [hideAfter_adjacent hboth hsome, List.map_append, List.map_cons, map_criterionFilter]
      rfl

theorem hideOutside_mapLevels (vertices edges : Option Pipeline) (f : Pipeline → Pipeline)
    (l : List Step) : hideOutside vertices edges (l.map (·.mapLevels f)) =
      (hideOutside vertices edges l).map (·.mapLevels f) := by
  induction l with
  | nil => rfl
  | cons s l ih =>
    have hhead : (l.map (·.mapLevels f)).head?.any isCriterionFilter =
        l.head?.any isCriterionFilter := by
      cases l with
      | nil => rfl
      | cons t l => exact isCriterionFilter_mapLevels f t
    rw [List.map_cons, hideOutside, hideOutside, ih, hhead, List.map_append, hideAfter_mapLevels]
    split <;> rfl

namespace Behaviour

theorem shallow_hideOutside (vertices edges : Option Pipeline) :
    Shallow (Behaviour.hideOutside vertices edges).reshape := fun g p =>
  congr_arg (Pipeline.mk · p.mode) (hideOutside_mapLevels vertices edges g p.steps)

theorem shallow_markComputer (workers : Option Nat) :
    Shallow (Behaviour.markComputer workers).reshape := fun _ _ => rfl

end Behaviour

namespace Strategy

/-! ## Strategies in either order -/

def Commutes (s t : Strategy) : Prop :=
  ∀ p, (s.applyTo p).passed?.bind (fun q => (t.applyTo q).passed?) =
    (t.applyTo p).passed?.bind fun q => (s.applyTo q).passed?

theorem Commutes.symm {s t : Strategy} (h : s.Commutes t) : t.Commutes s := fun p => (h p).symm

theorem passed?_applyAll_cons (s : Strategy) (l : List Strategy) (p : Pipeline) :
    (applyAll (s :: l) p).passed? = (s.applyTo p).passed?.bind fun q => (applyAll l q).passed? := by
  cases h : (s.applyTo p).failure with
  | some e => simp [applyAll_cons_of_failure h, Report.passed?, h]
  | none =>
    obtain ⟨hfailure, hpipeline⟩ := applyAll_cons h l
    simp only [Report.passed?, h, hfailure, hpipeline]
    rfl

theorem passed?_applyTo_of_faultless {s : Strategy} (h : ∀ level, s.fault? level = none)
    (p : Pipeline) : (s.applyTo p).passed? = some (p.mapLevels s.behaviour.reshape) := by
  simp only [Report.passed?, passes_of_faultless h]
  rfl

theorem Commutes.of_faultless {s t : Strategy} (hs : ∀ level, s.fault? level = none)
    (ht : ∀ level, t.fault? level = none)
    (h : ∀ p : Pipeline, (p.mapLevels s.behaviour.reshape).mapLevels t.behaviour.reshape =
      (p.mapLevels t.behaviour.reshape).mapLevels s.behaviour.reshape) : s.Commutes t := by
  intro p
  simp only [passed?_applyTo_of_faultless hs, passed?_applyTo_of_faultless ht, Option.bind_some, h]

/-- Strategies that change nothing commute: one of them fails in either order or none does. -/
theorem Commutes.of_reshape_eq {s t : Strategy} (hs : ∀ p, s.behaviour.reshape p = p)
    (ht : ∀ p, t.behaviour.reshape p = p) : s.Commutes t := by
  intro p
  have hpassed {s : Strategy} (hs : ∀ p, s.behaviour.reshape p = p) :
      (s.applyTo p).passed? = if (s.applyTo p).failure = none then some p else none := by
    have hsame : (s.applyTo p).pipeline = p := mapLevels_of_reshape_eq hs p
    cases h : (s.applyTo p).failure <;> simp [Report.passed?, h, hsame]
  rw [hpassed hs, hpassed ht]
  split <;> split <;> simp_all

theorem passed?_move_to_front {s : Strategy} {before after : List Strategy}
    (h : ∀ t ∈ before, t.Commutes s) (p : Pipeline) :
    (applyAll (before ++ s :: after) p).passed? = (applyAll (s :: (before ++ after)) p).passed? := by
  induction before generalizing p with
  | nil => rfl
  | cons t before ih =>
    obtain ⟨ht, hbefore⟩ := List.forall_mem_cons.1 h
    calc (applyAll (t :: before ++ s :: after) p).passed?
        = (t.applyTo p).passed?.bind fun q =>
            (s.applyTo q).passed?.bind fun r => (applyAll (before ++ after) r).passed? := by
          simp only [List.cons_append, passed?_applyAll_cons, ih hbefore]
      _ = (s.applyTo p).passed?.bind fun q =>
            (t.applyTo q).passed?.bind fun r => (applyAll (before ++ after) r).passed? := by
          rw [← Option.bind_assoc, ht p, Option.bind_assoc]
      _ = (applyAll (s :: (t :: before ++ after)) p).passed? := by
          simp only [List.cons_append, passed?_applyAll_cons]

/-- The same strategies, each time in an order that meets their demands, do the same if those that ask
nothing of each other commute. -/
theorem passed?_eq_of_perm {l l' : List Strategy} (hperm : l.Perm l') (hl : InOrder l)
    (hl' : InOrder l') (hnames : (l.map (·.name)).Nodup)
    (hcommutes : ∀ s ∈ l, ∀ t ∈ l, s.name ≠ t.name → ¬s.MustPrecede t → ¬t.MustPrecede s →
      s.Commutes t) (p : Pipeline) : (applyAll l p).passed? = (applyAll l' p).passed? := by
  induction l generalizing l' p with
  | nil => rw [List.nil_perm.1 hperm]
  | cons s l ih =>
    obtain ⟨before, after, rfl⟩ := List.append_of_mem (hperm.subset List.mem_cons_self)
    have hrest : l.Perm (before ++ after) := (hperm.trans List.perm_middle).cons_inv
    rw [List.map_cons, List.nodup_cons] at hnames
    have hfront : ∀ t ∈ before, t.Commutes s := by
      intro t ht
      have hmem : t ∈ l := hrest.symm.subset (List.mem_append_left after ht)
      have hpair : [t, s].Sublist (before ++ s :: after) :=
        (List.singleton_sublist.2 ht).append (List.singleton_sublist.2 List.mem_cons_self)
      refine hcommutes t (.tail s hmem) s List.mem_cons_self (fun hname => hnames.1 ?_) ?_ ?_
      · exact hname ▸ List.mem_map_of_mem hmem
      · exact hl.ready_head t (.tail s hmem)
      · exact (hl'.sublist hpair).ready_head s (.tail t List.mem_cons_self)
    have hsub := (List.sublist_cons_self s after).append_left before
    rw [passed?_move_to_front hfront, passed?_applyAll_cons, passed?_applyAll_cons]
    refine congr_arg _ (funext fun q => ?_)
    exact ih hrest (hl.sublist (List.sublist_cons_self s l)) (hl'.sublist hsub) hnames.2
      (fun t ht u hu => hcommutes t (.tail s ht) u (.tail s hu)) q

/-! ## Built-in strategies -/

theorem commutes_subgraph_vertexProgram (vertices edges : Option Criterion) (workers : Option Nat) :
    (subgraph vertices edges).Commutes (vertexProgram workers) :=
  .of_faultless (fun _ => rfl) (fun _ => rfl) fun p =>
    p.mapLevels_comm (Behaviour.shallow_hideOutside _ _) (Behaviour.shallow_markComputer workers)
      fun _ => rfl

theorem commutes_readOnly_lambdaRestriction : readOnly.Commutes lambdaRestriction :=
  .of_reshape_eq (fun _ => rfl) fun _ => rfl

/-- Built-in strategies that ask nothing of each other commute. -/
theorem BuiltIn.commutes {s t : Strategy} (hs : s.BuiltIn) (ht : t.BuiltIn) (hname : s.name ≠ t.name)
    (hst : ¬s.MustPrecede t) (hts : ¬t.MustPrecede s) : s.Commutes t := by
  -- Strategies of different categories ask something of each other, and so do the two optimizations.
  have hrank : s.category.rank = t.category.rank :=
    le_antisymm (Nat.le_of_not_lt fun h => hts (.category h))
      (Nat.le_of_not_lt fun h => hst (.category h))
  cases hs with
  | identityRemoval =>
    cases ht with
    | identityRemoval => exact absurd rfl hname
    | incidentToAdjacent => exact absurd (.prior List.mem_cons_self) hst
    | _ => cases hrank
  | incidentToAdjacent =>
    cases ht with
    | identityRemoval => exact absurd (.prior List.mem_cons_self) hts
    | incidentToAdjacent => exact absurd rfl hname
    | _ => cases hrank
  | subgraph vertices edges =>
    cases ht with
    | subgraph => exact absurd rfl hname
    | vertexProgram workers => exact commutes_subgraph_vertexProgram vertices edges workers
    | _ => cases hrank
  | vertexProgram workers =>
    cases ht with
    | subgraph vertices edges => exact (commutes_subgraph_vertexProgram vertices edges workers).symm
    | vertexProgram => exact absurd rfl hname
    | _ => cases hrank
  | readOnly =>
    cases ht with
    | readOnly => exact absurd rfl hname
    | lambdaRestriction => exact commutes_readOnly_lambdaRestriction
    | _ => cases hrank
  | lambdaRestriction =>
    cases ht with
    | readOnly => exact commutes_readOnly_lambdaRestriction.symm
    | lambdaRestriction => exact absurd rfl hname
    | _ => cases hrank

/-- The place of a built-in strategy among the others: its category, and within one those that ask for
another strategy go behind those that do not. -/
def standing (s : Strategy) : Nat := 2 * s.category.rank + min 1 s.prior.length

theorem BuiltIn.standing_lt {s t : Strategy} (hs : s.BuiltIn) (ht : t.BuiltIn) (h : s.MustPrecede t) :
    s.standing < t.standing := by
  cases h with
  | category h =>
    have := Nat.min_le_left 1 s.prior.length
    rw [standing, standing]
    omega
  | prior h =>
    cases ht with
    | incidentToAdjacent =>
      have hname := List.mem_singleton.1 h
      cases hs with
      | identityRemoval => decide
      | _ => exact absurd hname (of_decide_eq_false rfl)
    | _ => cases h
  | post h => cases hs <;> cases h

theorem BuiltIn.not_cyclic {l : List Strategy} (hl : ∀ s ∈ l, s.BuiltIn) : ¬Cyclic l := by
  rintro ⟨s, hs⟩
  have hlt {t u : Strategy} (h : Relation.TransGen (Demands l) t u) : t.standing < u.standing := by
    induction h with
    | single h => exact (hl _ h.1).standing_lt (hl _ h.2.1) h.2.2
    | tail _ h ih => exact ih.trans ((hl _ h.1).standing_lt (hl _ h.2.1) h.2.2)
  exact Nat.lt_irrefl _ (hlt hs)

end Strategy

namespace StrategySet

/-- Strategies of distinct names whose demands do not run in a circle can all be added. -/
theorem addAll_ok_of_not_cyclic {l : List Strategy} (hnames : (l.map (·.name)).Nodup)
    (hl : ¬Strategy.Cyclic l) : ∃ set, addAll l = .ok set := by
  induction l using List.reverseRecOn with
  | nil => exact ⟨_, rfl⟩
  | append_singleton l s ih =>
    have hnames' := hnames.sublist ((List.sublist_append_left l [s]).map _)
    obtain ⟨set, hset⟩ := ih hnames' fun h => hl (h.mono (List.subset_append_left l [s]))
    obtain ⟨-, hperm⟩ := valid_addAll hnames' hset
    have hcandidates : (set.candidates s).Perm (l ++ [s]) := by
      rw [candidates_of_fresh (fresh_of_perm hnames hperm)]
      exact hperm.append_right [s]
    obtain ⟨set', hset', -⟩ := add_ok_of_not_cyclic fun h => hl (h.mono hcandidates.subset)
    exact ⟨set', by rw [addAll_concat, hset]; exact hset'⟩

/-- Built-in strategies of distinct names can be added to the empty set in any order, each time without
refusal.  The sets may differ in their order, but they fail on the same pipelines, and of the others
they make the same: the same steps, all that is below them, and the same modes. -/
theorem apply_eq_of_perm {l l' : List Strategy} (hl : ∀ s ∈ l, s.BuiltIn)
    (hnames : (l.map (·.name)).Nodup) (hperm : l.Perm l') :
    ∃ set set', addAll l = .ok set ∧ addAll l' = .ok set' ∧ ∀ p : Pipeline,
      ((set.apply p).failure = none ↔ (set'.apply p).failure = none) ∧
        ((set.apply p).failure = none → (set.apply p).pipeline = (set'.apply p).pipeline) := by
  have hl' : ∀ s ∈ l', s.BuiltIn := fun s hs => hl s (hperm.symm.subset hs)
  have hnames' : (l'.map (·.name)).Nodup := (hperm.map _).nodup_iff.1 hnames
  obtain ⟨set, hset⟩ := addAll_ok_of_not_cyclic hnames (Strategy.BuiltIn.not_cyclic hl)
  obtain ⟨set', hset'⟩ := addAll_ok_of_not_cyclic hnames' (Strategy.BuiltIn.not_cyclic hl')
  obtain ⟨hvalid, hmembers⟩ := valid_addAll hnames hset
  obtain ⟨hvalid', hmembers'⟩ := valid_addAll hnames' hset'
  refine ⟨set, set', hset, hset', fun p => Report.passed?_eq_iff.1 ?_⟩
  refine Strategy.passed?_eq_of_perm (hmembers.trans (hperm.trans hmembers'.symm)) hvalid.inOrder
    hvalid'.inOrder hvalid.names (fun s hs t ht => ?_) p
  exact (hl s (hmembers.subset hs)).commutes (hl t (hmembers.subset ht))

/-- Decorations stay in the order in which they were added.  The criterion for edges takes the step
apart, in the root and in the child, before the mode is set or after. -/
theorem apply_decorations_in_either_order :
    let knows := (Traversal.start.hasLabel [.literal "knows"]).criterion
    let l : List Strategy := [.readOnly, .subgraph none (some knows), .vertexProgram (some 2)]
    let child : Pipeline := { steps := [.adjacent .outward []] }
    let p : Pipeline := { steps := [.vertices [], .adjacent .inward [], .filter child none] }
    ∃ set set', addAll l = .ok set ∧ addAll l.reverse = .ok set' ∧
      set.names = ["SubgraphStrategy", "VertexProgramStrategy", "ReadOnlyStrategy"] ∧
      set'.names = ["VertexProgramStrategy", "SubgraphStrategy", "ReadOnlyStrategy"] ∧
      (set.apply p).failure = none ∧ (set'.apply p).failure = none ∧
      (set.apply p).pipeline.levels.map (·.map (·.name)) =
        [["V", "inE", "filter", "outV", "filter"], ["outE", "filter", "inV"]] ∧
      (set.apply p).pipeline = (set'.apply p).pipeline := by
  intro knows l child p
  have hl : ∀ s ∈ l, s.BuiltIn := by
    simp [l, Strategy.BuiltIn.readOnly, Strategy.BuiltIn.subgraph, Strategy.BuiltIn.vertexProgram]
  obtain ⟨set, set', hset, hset', hsame⟩ := apply_eq_of_perm hl (by decide) l.reverse_perm.symm
  obtain ⟨hfails, hpipeline⟩ := hsame p
  obtain rfl : _ = set := Except.ok.inj ((Eq.refl (Except.ok _)).symm.trans hset)
  obtain rfl : _ = set' := Except.ok.inj ((Eq.refl (Except.ok _)).symm.trans hset')
  exact ⟨_, _, hset, hset', rfl, rfl, rfl, hfails.1 rfl, by decide +kernel, hpipeline rfl⟩

end StrategySet

end GraphTraversal
