import GraphTraversal.Proofs.Step.Congruence
import GraphTraversal.Strategy.Set

/-! # Rewriting at every level

A strategy rewrites the steps of a pipeline after their open children.  So a step keeps its place and
has each child in rewritten form, unless the step is a filter that was injected.
-/

namespace GraphTraversal

section Levels

variable (f : Pipeline → Pipeline)

theorem Step.mapLevelsOfAll_eq (l : List Step) :
    Step.mapLevelsOfAll f l = l.map (·.mapLevels f) := by
  induction l with
  | nil => rfl
  | cons s l ih => rw [Step.mapLevelsOfAll, ih, List.map_cons]

theorem Pipeline.mapLevels_eq (p : Pipeline) :
    p.mapLevels f = f ⟨p.steps.map (·.mapLevels f), p.mode⟩ := by
  cases p
  rw [← Step.mapLevelsOfAll_eq]
  rfl

def Rewritten (p p' : Pipeline) : Prop := p' = p.mapLevels f

theorem Pipeline.rewritten_mapLevelsOfAll (l : List Pipeline) :
    List.Forall₂ (Rewritten f) l (Pipeline.mapLevelsOfAll f l) := by
  induction l with
  | nil => exact .nil
  | cons p l ih => exact .cons rfl ih

theorem Decision.rewritten_mapLevelsOfOptions (l : List (Value × Pipeline)) :
    List.Forall₂ (OptionRelated (Rewritten f)) l (Decision.mapLevelsOfOptions f l) := by
  induction l with
  | nil => exact .nil
  | cons o l ih => exact .cons ⟨rfl, rfl⟩ ih

theorem Comparator.rewritten_mapLevelsOfAll (l : List Comparator) :
    List.Forall₂ (Comparator.Related (Rewritten f)) l (Comparator.mapLevelsOfAll f l) := by
  induction l with
  | nil => exact .nil
  | cons c l ih =>
    cases c with
    | «by» p => exact .cons (.by rfl) ih
    | self order => exact .cons (.self order) ih

theorem Step.mapLevels_injected {s : Step} (h : s.isInjected) : s.mapLevels f = s := by
  cases s with
  | filter child injectedBy =>
    cases injectedBy with
    | none => cases h
    | some name => rfl
  | _ => cases h

theorem Step.mapLevels_leaf {s : Step} (h : s.isBranching = false) : s.mapLevels f = s := by
  cases s with
  | filter | and | «repeat» | choose | groupCount | project | order => cases h
  | _ => rfl

/-- A step with children that no strategy put there has them rewritten. -/
theorem Step.related_mapLevels {s : Step} (hs : s.isBranching) (hi : s.isInjected = false) :
    Step.Related (Rewritten f) s (s.mapLevels f) := by
  have hr (p : Pipeline) : Rewritten f p (p.mapLevels f) := rfl
  cases s with
  | filter child injectedBy =>
    cases injectedBy with
    | none => exact .filter (hr child) none
    | some name => cases hi
  | and l => exact .and (Pipeline.rewritten_mapLevelsOfAll f l)
  | «repeat» child times => exact .repeat (hr child) times
  | choose decision phase =>
    cases decision with
    | lambda test yes no => exact .choose (.lambda test (hr yes) (hr no)) phase phase
    | predicate test yes no => exact .choose (.predicate (hr test) (hr yes) (hr no)) phase phase
    | selector pick options fallback =>
      have hoptions := Decision.rewritten_mapLevelsOfOptions f options
      cases fallback with
      | none => exact .choose (.selector (hr pick) hoptions .none) phase phase
      | some child => exact .choose (.selector (hr pick) hoptions (.some (hr child))) phase phase
  | groupCount ring => exact .groupCount (Pipeline.rewritten_mapLevelsOfAll f ring.items)
  | project names ring => exact .project names (Pipeline.rewritten_mapLevelsOfAll f ring.items)
  | order l => exact .order (Comparator.rewritten_mapLevelsOfAll f l)
  | _ => cases hs

end Levels

/-! ## Corresponding steps -/

section Related

variable {R : Pipeline → Pipeline → Prop}

theorem Step.Related.isMutating {s s' : Step} (h : Step.Related R s s') :
    s.isMutating = false ∧ s'.isMutating = false := by
  cases h <;> exact ⟨rfl, rfl⟩

theorem Step.Related.lambda? {s s' : Step} (h : Step.Related R s s') : s'.lambda? = s.lambda? := by
  cases h with
  | choose hd phase phase' => cases hd <;> rfl
  | _ => rfl

theorem Step.Related.isBranching {s s' : Step} (h : Step.Related R s s') : s'.isBranching := by
  cases h <;> rfl

theorem Step.Related.isInjected {s s' : Step} (h : Step.Related R s s') (hi : s.isInjected = false) :
    s'.isInjected = false := by
  cases h with
  | filter hp injectedBy =>
    cases injectedBy with
    | none => rfl
    | some name => cases hi
  | _ => rfl

end Related

theorem Step.children_mapLevels (f : Pipeline → Pipeline) {s : Step} (hs : s.isBranching)
    (hi : s.isInjected = false) :
    (s.mapLevels f).children = s.children.map (·.mapLevels f) := by
  have h := (s.related_mapLevels f hs hi).children
  generalize (s.mapLevels f).children = l', s.children = l at h ⊢
  induction h with
  | nil => rfl
  | cons hp _ ih => rw [ih, hp, List.map_cons]

/-- The step has a place for children, and strategies may look at them. -/
structure Step.IsOpen (s : Step) : Prop where
  isBranching : s.isBranching
  isInjected : s.isInjected = false

/-- Rewriting below a step changes nothing, or the step is open before and after. -/
theorem Step.mapLevels_eq_or_isOpen (f : Pipeline → Pipeline) (s : Step) :
    s.mapLevels f = s ∨ s.IsOpen ∧ (s.mapLevels f).IsOpen := by
  cases hs : s.isBranching with
  | false => exact .inl (s.mapLevels_leaf f hs)
  | true =>
    cases hi : s.isInjected with
    | true => exact .inl (s.mapLevels_injected f hi)
    | false =>
      have hrelated := s.related_mapLevels f hs hi
      exact .inr ⟨⟨hs, hi⟩, hrelated.isBranching, hrelated.isInjected hi⟩

/-- A property of common steps stays with a step whose children keep it when they are rewritten. -/
theorem Step.everywhere_mapLevels {L : Lambda → Prop} {P : Step → Prop}
    (hP : HoldsOfBuilt false L P) {f : Pipeline → Pipeline} {s : Step} (h : s.Everywhere P)
    (ih : ∀ c ∈ s.children, (c.mapLevels f).Everywhere P) : (s.mapLevels f).Everywhere P := by
  cases hs : s.isBranching with
  | false =>
    rw [s.mapLevels_leaf f hs]
    exact h
  | true =>
    cases hi : s.isInjected with
    | true =>
      rw [s.mapLevels_injected f hi]
      exact h
    | false =>
      have hrelated := s.related_mapLevels f hs hi
      apply hP.everywhere (hrelated.isInjected hi) hrelated.isMutating.2
      · rw [hrelated.lambda?]
        exact hP.lambda h.1
      · rw [s.children_mapLevels f hs hi]
        exact List.forall_mem_map.2 ih

/-- A property of common steps that a rewriting keeps at one level it keeps at every depth. -/
theorem Pipeline.Everywhere.mapLevels {L : Lambda → Prop} {P : Step → Prop}
    (hP : HoldsOfBuilt false L P) {f : Pipeline → Pipeline} (hf : ∀ p : Pipeline, p.Everywhere P → (f p).Everywhere P)
    {p : Pipeline} (hp : p.Everywhere P) : (p.mapLevels f).Everywhere P := by
  induction p using Pipeline.induction with
  | step p ih =>
    rw [p.mapLevels_eq]
    refine hf _ (Pipeline.everywhere_iff.2 (List.forall_mem_map.2 fun s hs => ?_))
    have hsteps := Pipeline.everywhere_iff.1 hp s hs
    exact Step.everywhere_mapLevels hP hsteps fun c hc => ih s hs c hc (hsteps.2 c hc)

/-! ## The list of levels -/

theorem Step.levelsOfAll_eq (l : List Step) : Step.levelsOfAll l = l.flatMap (·.levels) := by
  induction l with
  | nil => rfl
  | cons s l ih => rw [Step.levelsOfAll, ih, List.flatMap_cons]

theorem Pipeline.levelsOfAll_eq (l : List Pipeline) :
    Pipeline.levelsOfAll l = l.flatMap (·.levels) := by
  induction l with
  | nil => rfl
  | cons p l ih => rw [Pipeline.levelsOfAll, ih, List.flatMap_cons]

theorem Decision.levelsOfOptions_eq (l : List (Value × Pipeline)) :
    Decision.levelsOfOptions l = (l.map (·.2)).flatMap (·.levels) := by
  induction l with
  | nil => rfl
  | cons o l ih => rw [Decision.levelsOfOptions, ih, List.map_cons, List.flatMap_cons]

theorem Comparator.levelsOfAll_eq (l : List Comparator) :
    Comparator.levelsOfAll l = (l.filterMap (·.child?)).flatMap (·.levels) := by
  induction l with
  | nil => rfl
  | cons c l ih =>
    cases c with
    | «by» p =>
      rw [Comparator.levelsOfAll, ih]
      rfl
    | self order => exact ih

theorem Pipeline.levels_eq (p : Pipeline) : p.levels = p.steps :: p.steps.flatMap (·.levels) := by
  cases p
  rw [← Step.levelsOfAll_eq]
  rfl

/-- The levels below a step are those of its open children. -/
theorem Step.levels_eq (s : Step) : s.levels = s.openChildren.flatMap (·.levels) := by
  cases s with
  | filter child injectedBy =>
    cases injectedBy with
    | none => exact (List.append_nil _).symm
    | some name => rfl
  | and children => exact Pipeline.levelsOfAll_eq children
  | «repeat» child times => exact (List.append_nil _).symm
  | choose decision phase =>
    cases decision with
    | lambda test yes no => simp [levels, openChildren, children, Decision.children]
    | predicate test yes no => simp [levels, openChildren, children, Decision.children]
    | selector pick options fallback =>
      cases fallback <;>
        simp [levels, openChildren, children, Decision.children, Decision.levelsOfOptions_eq]
  | groupCount ring => exact Pipeline.levelsOfAll_eq ring.items
  | project names ring => exact Pipeline.levelsOfAll_eq ring.items
  | order comparators => exact Comparator.levelsOfAll_eq comparators
  | _ => rfl

theorem Step.openChildren_eq {s : Step} (h : s.isInjected = false) : s.openChildren = s.children := by
  cases s with
  | filter child injectedBy =>
    cases injectedBy with
    | none => rfl
    | some name => cases h
  | _ => rfl

theorem Step.openChildren_injected {s : Step} (h : s.isInjected) : s.openChildren = [] := by
  cases s with
  | filter child injectedBy =>
    cases injectedBy with
    | none => cases h
    | some name => rfl
  | _ => cases h

theorem Step.openChildren_subset (s : Step) : s.openChildren ⊆ s.children := by
  cases hi : s.isInjected with
  | true => exact openChildren_injected hi ▸ List.nil_subset _
  | false => exact openChildren_eq hi ▸ List.Subset.refl _

theorem Step.children_leaf {s : Step} (h : s.isBranching = false) : s.children = [] := by
  cases s with
  | filter | and | «repeat» | choose | groupCount | project | order => cases h
  | _ => rfl

/-- The open children of a rewritten step are those of the step, rewritten. -/
theorem Step.openChildren_mapLevels (f : Pipeline → Pipeline) (s : Step) :
    (s.mapLevels f).openChildren = s.openChildren.map (·.mapLevels f) := by
  cases hi : s.isInjected with
  | true => rw [s.mapLevels_injected f hi, openChildren_injected hi, List.map_nil]
  | false =>
    cases hs : s.isBranching with
    | false =>
      rw [s.mapLevels_leaf f hs, openChildren_eq hi, children_leaf hs, List.map_nil]
    | true =>
      rw [openChildren_eq ((s.related_mapLevels f hs hi).isInjected hi), openChildren_eq hi,
        s.children_mapLevels f hs hi]

/-! ## Properties of every level -/

inductive Pipeline.AllLevels (P : Pipeline → Prop) : Pipeline → Prop where
  | intro {p : Pipeline} (here : P p)
    (below : ∀ s ∈ p.steps, ∀ c ∈ s.openChildren, AllLevels P c) : AllLevels P p

theorem Pipeline.AllLevels.of_forall {P : Pipeline → Prop} (h : ∀ p, P p) (p : Pipeline) :
    p.AllLevels P := by
  induction p using Pipeline.induction with
  | step p ih => exact ⟨h p, fun s hs c hc => ih s hs c (s.openChildren_subset hc)⟩

theorem Pipeline.AllLevels.imp {P Q : Pipeline → Prop} (h : ∀ p, P p → Q p) {p : Pipeline}
    (hp : p.AllLevels P) : p.AllLevels Q := by
  induction hp with
  | intro here below ih => exact ⟨h _ here, ih⟩

/-! ## Open children -/

section Children

variable (h k : Pipeline → Pipeline)

def Decision.mapChildren : Decision → Decision
  | .lambda test yes no => .lambda test (h yes) (h no)
  | .predicate test yes no => .predicate (h test) (h yes) (h no)
  | .selector pick options fallback =>
    .selector (h pick) (options.map fun o => (o.1, h o.2)) (fallback.map h)

def Comparator.mapChild : Comparator → Comparator
  | .by child => .by (h child)
  | .self order => .self order

def Step.mapOpen : Step → Step
  | .filter child none => .filter (h child) none
  | .and children => .and (children.map h)
  | .repeat child times => .repeat (h child) times
  | .choose decision phase => .choose (decision.mapChildren h) phase
  | .groupCount ring => .groupCount { ring with items := ring.items.map h }
  | .project names ring => .project names { ring with items := ring.items.map h }
  | .order comparators => .order (comparators.map (·.mapChild h))
  | s => s

theorem Pipeline.mapLevelsOfAll_eq (l : List Pipeline) :
    Pipeline.mapLevelsOfAll h l = l.map (·.mapLevels h) := by
  induction l with
  | nil => rfl
  | cons p l ih => rw [Pipeline.mapLevelsOfAll, ih, List.map_cons]

theorem Decision.mapLevelsOfOptions_eq (l : List (Value × Pipeline)) :
    Decision.mapLevelsOfOptions h l = l.map fun o => (o.1, o.2.mapLevels h) := by
  induction l with
  | nil => rfl
  | cons o l ih => rw [Decision.mapLevelsOfOptions, ih, List.map_cons]

theorem Comparator.mapLevelsOfAll_eq (l : List Comparator) :
    Comparator.mapLevelsOfAll h l = l.map (·.mapChild (·.mapLevels h)) := by
  induction l with
  | nil => rfl
  | cons c l ih => cases c <;> rw [Comparator.mapLevelsOfAll, ih, List.map_cons] <;> rfl

/-- To rewrite below a step is to rewrite its open children. -/
theorem Step.mapLevels_eq_mapOpen (s : Step) : s.mapLevels h = s.mapOpen (·.mapLevels h) := by
  cases s with
  | filter child injectedBy => cases injectedBy <;> rfl
  | and l => exact congr_arg Step.and (Pipeline.mapLevelsOfAll_eq h l)
  | choose decision phase =>
    cases decision with
    | lambda | predicate => rfl
    | selector pick options fallback =>
      have hoptions := Decision.mapLevelsOfOptions_eq h options
      cases fallback with
      | none => exact congr_arg (fun l => Step.choose (.selector _ l none) phase) hoptions
      | some child => exact congr_arg (fun l => Step.choose (.selector _ l (some _)) phase) hoptions
  | groupCount ring =>
    exact congr_arg (fun l => Step.groupCount ⟨l, _⟩) (Pipeline.mapLevelsOfAll_eq h ring.items)
  | project names ring =>
    exact congr_arg (fun l => Step.project names ⟨l, _⟩) (Pipeline.mapLevelsOfAll_eq h ring.items)
  | order l => exact congr_arg Step.order (Comparator.mapLevelsOfAll_eq h l)
  | _ => rfl

theorem Decision.mapChildren_mapChildren (d : Decision) :
    (d.mapChildren h).mapChildren k = d.mapChildren (k ∘ h) := by
  cases d with
  | lambda | predicate => rfl
  | selector pick options fallback => simp [mapChildren]

theorem Comparator.mapChild_mapChild (c : Comparator) :
    (c.mapChild h).mapChild k = c.mapChild (k ∘ h) := by
  cases c <;> rfl

theorem Step.mapOpen_mapOpen (s : Step) : (s.mapOpen h).mapOpen k = s.mapOpen (k ∘ h) := by
  cases s with
  | filter child injectedBy => cases injectedBy <;> rfl
  | and l => simp [mapOpen]
  | choose decision phase => simp [mapOpen, Decision.mapChildren_mapChildren]
  | groupCount ring => simp [mapOpen]
  | project names ring => simp [mapOpen]
  | order l => simp [mapOpen, Comparator.mapChild_mapChild]
  | _ => rfl

variable {h k}

theorem Decision.mapChildren_congr {d : Decision} (hd : ∀ c ∈ d.children, h c = k c) :
    d.mapChildren h = d.mapChildren k := by
  cases d with
  | lambda test yes no =>
    rw [mapChildren, mapChildren, hd yes List.mem_cons_self, hd no (.tail _ List.mem_cons_self)]
  | predicate test yes no =>
    rw [mapChildren, mapChildren, hd test List.mem_cons_self, hd yes (.tail _ List.mem_cons_self),
      hd no (.tail _ (.tail _ List.mem_cons_self))]
  | selector pick options fallback =>
    have hoptions : options.map (fun o => (o.1, h o.2)) = options.map fun o => (o.1, k o.2) := by
      refine List.map_congr_left fun o ho => congr_arg (Prod.mk o.1) (hd o.2 ?_)
      exact .tail _ (List.mem_append_left _ (List.mem_map_of_mem ho))
    have hfallback : fallback.map h = fallback.map k :=
      Option.map_congr fun c hc => hd c (.tail _ (List.mem_append_right _ (Option.mem_toList.2 hc)))
    rw [mapChildren, mapChildren, hd pick List.mem_cons_self, hoptions, hfallback]

theorem Comparator.mapChild_congr {c : Comparator} (hc : ∀ p ∈ c.child?, h p = k p) :
    c.mapChild h = c.mapChild k := by
  cases c with
  | «by» p => exact congr_arg Comparator.by (hc p rfl)
  | self order => rfl

theorem Step.mapOpen_congr {s : Step} (hs : ∀ c ∈ s.openChildren, h c = k c) :
    s.mapOpen h = s.mapOpen k := by
  cases s with
  | filter child injectedBy =>
    cases injectedBy with
    | none => exact congr_arg (Step.filter · none) (hs child List.mem_cons_self)
    | some name => rfl
  | and l => exact congr_arg Step.and (List.map_congr_left hs)
  | «repeat» child times => exact congr_arg (Step.repeat · times) (hs child List.mem_cons_self)
  | choose decision phase => exact congr_arg (Step.choose · phase) (Decision.mapChildren_congr hs)
  | groupCount ring => exact congr_arg (fun l => Step.groupCount ⟨l, _⟩) (List.map_congr_left hs)
  | project names ring =>
    exact congr_arg (fun l => Step.project names ⟨l, _⟩) (List.map_congr_left hs)
  | order l =>
    refine congr_arg Step.order (List.map_congr_left fun c hc => ?_)
    refine Comparator.mapChild_congr fun p hp => ?_
    exact hs p (List.mem_filterMap.2 ⟨c, hc, hp⟩)
  | _ => rfl

theorem Comparator.mapChild_id (c : Comparator) : c.mapChild (fun p => p) = c := by cases c <;> rfl

theorem Step.mapOpen_id (s : Step) : s.mapOpen (fun p => p) = s := by
  cases s with
  | filter child injectedBy => cases injectedBy <;> rfl
  | choose decision phase => cases decision <;> simp [mapOpen, Decision.mapChildren]
  | and | groupCount | project => simp [mapOpen]
  | order l => simp [mapOpen, Comparator.mapChild_id]
  | _ => rfl

end Children

section Unchanged

variable {f : Pipeline → Pipeline}

/-- A step whose open children stay as they are stays as it is. -/
theorem Step.mapLevels_eq_self {s : Step} (h : ∀ c ∈ s.openChildren, c.mapLevels f = c) :
    s.mapLevels f = s := by
  rw [s.mapLevels_eq_mapOpen, Step.mapOpen_congr h, s.mapOpen_id]

/-- A rewriting that leaves every level as it is leaves the tree as it is. -/
theorem Pipeline.AllLevels.mapLevels_eq_self {p : Pipeline} (h : p.AllLevels fun q => f q = q) :
    p.mapLevels f = p := by
  induction h with
  | @intro p here below ih =>
    have hsteps : p.steps.map (·.mapLevels f) = p.steps :=
      (List.map_congr_left fun s hs => Step.mapLevels_eq_self (ih s hs)).trans (List.map_id' _)
    rw [p.mapLevels_eq, hsteps]
    cases p
    exact here

end Unchanged

end GraphTraversal
