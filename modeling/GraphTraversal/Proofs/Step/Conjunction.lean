import Mathlib.Data.List.Induction
import GraphTraversal.Proofs.Run.Simulation
import GraphTraversal.Proofs.Step.Demand

/-! # Conjunctions as chains of filters

A conjunction asks its children in order and stops at the first that does not hold.  Filters in a row do
the same: a value that one of them drops or fails on never comes to the next.  The stages of the filters
hold nothing between two draws, so what surrounds them cannot tell the row from the one step, whatever the
children do to the graph.
-/

namespace GraphTraversal

namespace Pipeline

/-- The children before the last are asked first; the last is asked only if they all hold. -/
theorem allHold_append (m : Machine Step) (l : List Pipeline) (p : Pipeline) (v : Value) (g : Graph) :
    let o := allHold m l v g
    allHold m (l ++ [p]) v g =
      match o.result with
      | .ok true => ⟨(p.first m v o.graph).result.map (·.isSome),
          o.state ++ [(p.first m v o.graph).state], (p.first m v o.graph).graph⟩
      | _ => { o with state := o.state ++ [p] } := by
  induction l generalizing g with
  | nil =>
    simp only [allHold, List.nil_append]
    rcases (p.first m v g).result with e | _ | w <;> rfl
  | cons q l ih =>
    have hrest := ih (q.first m v g).graph
    simp only [List.cons_append, allHold]
    rcases (q.first m v g).result with e | _ | w
    · rfl
    · rfl
    · simp only [hrest]
      rcases (allHold m l v (q.first m v g).graph).result with e | _ | _ <;> rfl

end Pipeline

namespace Step

def filters (children : List Pipeline) : List Step := children.map (.filter · none)

theorem filters_append (children : List Pipeline) (p : Pipeline) :
    freshCells (filters (children ++ [p])) = ⟨.filter p none, .fresh⟩ :: freshCells (filters children) := by
  simp [filters, freshCells]

section Rows

variable {n : Nat} {s s' : List (Cell Step) × List Value} {g g' : Graph}

theorem waits_filters (n : Nat) (children : List Pipeline) :
    ∀ x ∈ freshCells (filters children), x.Waits (machine (n + 1)) := by
  refine waits_of_mem_freshCells fun s hs => ?_
  obtain ⟨p, -, rfl⟩ := List.mem_map.1 hs
  rfl

/-- A filter that has drawn a value hands it on if its child holds. -/
theorem filter_turn (p : Pipeline) {d : Draw (List (Cell Step) × List Value)} {v : Value}
    (hd : d.result = some (.ok v)) :
    (⟨.filter p none, .fresh⟩ : Cell Step).turn (machine (n + 1)) d =
      let o := p.first (machine n) v d.graph
      let back (l : List Value) := (⟨.filter o.state none, { buffer := l }⟩ :: d.state.1, d.state.2)
      match o.result with
      | .error e => .finished ⟨some (.error e), back [], o.graph⟩
      | .ok found => .again (back (keepIf found.isSome v)) o.graph := by
  have hexpand : (machine (n + 1)).expand (.filter p none) v d.graph =
      ⟨(p.first (machine n) v d.graph).result.map fun found => keepIf found.isSome v,
        .filter (p.first (machine n) v d.graph).state none, (p.first (machine n) v d.graph).graph⟩ := rfl
  rw [Cell.turn_expanding (by rfl) hd, hexpand]
  dsimp only
  rcases (p.first (machine n) v d.graph).result with e | found <;> rfl

/-- The row passes a value on if all the children hold for it, and fails if one of them does; otherwise it
draws again. -/
theorem filters_passed (children : List Pipeline) {v : Value}
    (hdraw : (machine (n + 1)).cellProducer s g = ⟨some (.ok v), s', g'⟩) :
    let o := Pipeline.allHold (machine n) children v g'
    let after := (freshCells (filters o.state) ++ s'.1, s'.2)
    (machine (n + 1)).cellProducer (freshCells (filters children) ++ s.1, s.2) g =
      match o.result with
      | .error e => ⟨some (.error e), after, o.graph⟩
      | .ok true => ⟨some (.ok v), after, o.graph⟩
      | .ok false => (machine (n + 1)).cellProducer after o.graph := by
  have hm := machine_keeps_kind (n + 1)
  induction children using List.reverseRecOn with
  | nil => exact hdraw
  | append_singleton children p ih =>
    have hall := Pipeline.allHold_append (machine n) children p v g'
    dsimp only at ih hall ⊢
    rw [hall, filters_append, List.cons_append, cellProducer_turn hm rfl _ _ _ ih]
    rcases (Pipeline.allHold (machine n) children v g').result with e | _ | _
    -- a child before the last fails, or does not hold, so the last filter does not get the value
    · simp only [filters_append]
      rfl
    · simp only [filters_append, List.cons_append]
      rw [cellProducer_turn hm rfl _ _ _ rfl]
    · rw [filter_turn p rfl]
      simp only [filters_append, List.cons_append]
      rcases (p.first (machine n) v (Pipeline.allHold (machine n) children v g').graph).result
        with e | _ | w
      · rfl
      · rfl
      -- the last filter holds the value, and the same pull takes it
      · change (machine (n + 1)).cellProducer (⟨_, { buffer := [v] }⟩ :: _, _) _ = _
        exact cellProducer_answered (r := some v) rfl _ _ _

end Rows

/-- A conjunction and a row of filters for its children, none of which holds anything. -/
def IsRow (_ : Graph) (x : Cell Step) (stretch : List (Cell Step)) (_ : List (Cell Step) × List Value) :
    Prop :=
  ∃ children, x = ⟨.and children, .fresh⟩ ∧ stretch = freshCells (filters children)

/-- A row of filters stands in for a conjunction, wherever the graph moves. -/
theorem row_standsIn (n : Nat) : StandsIn (machine (n + 1)) (fun _ _ => True) IsRow where
  kind := by
    rintro _ _ _ _ ⟨children, rfl, -⟩
    exact ⟨rfl, rfl⟩
  moved h _ _ := h
  held := by
    rintro _ _ _ _ _ _ ⟨children, rfl, -⟩ ⟨⟩
  ended := by
    rintro _ _ _ _ _ _ ⟨children, rfl, rfl⟩ - hdraw
    exact ended_of_waits (machine_keeps_kind _) (waits_filters n children) hdraw
  failed := by
    rintro _ _ _ _ _ _ _ ⟨children, rfl, rfl⟩ - hdraw
    exact ⟨_, failed_of_waits (machine_keeps_kind _) (waits_filters n children) hdraw, children, rfl, rfl⟩
  passed := by
    rintro _ _ _ _ v _ g ⟨children, rfl, rfl⟩ - hdraw
    have hpassed := filters_passed children hdraw
    have hexpand : (machine (n + 1)).expand (.and children) v g =
        ⟨(Pipeline.allHold (machine n) children v g).result.map (keepIf · v),
          .and (Pipeline.allHold (machine n) children v g).state,
          (Pipeline.allHold (machine n) children v g).graph⟩ := rfl
    dsimp only at hpassed
    rw [hexpand]
    cases hresult : (Pipeline.allHold (machine n) children v g).result with
    | error e =>
      rw [hresult] at hpassed
      exact .failed rfl hpassed ⟨_, rfl, rfl⟩
    | ok holds =>
      rw [hresult] at hpassed
      cases holds with
      | true => exact .value rfl hpassed ⟨_, rfl, rfl⟩
      | false => exact .nothing rfl hpassed ⟨_, rfl, rfl⟩

/-- A conjunction is a chain of filters.  Whatever steps stand before it and behind it, and whatever its
children do to the graph, draining them with the conjunction brings the same results, errors in their
places among them, and leaves the same graph as draining them with a filter for each child in its place;
and draining comes to an end. -/
theorem and_drains_as_filters (before later : List Step) (children : List Pipeline) (seeds : List Value)
    (g : Graph) :
    let one := before ++ .and children :: later
    let many := before ++ children.map (.filter · none) ++ later
    (∃ l g', Drains producer (one, .start seeds one.length) g l g') ∧
      ∀ l g', Drains producer (one, .start seeds one.length) g l g' ↔
        Drains producer (many, .start seeds many.length) g l g' := by
  intro one many
  constructor
  · obtain ⟨l, g', h⟩ := exists_drains (machine_keeps_kind (heights one)) (freshCells one) seeds g
    exact ⟨l, g', (drains_start_iff le_rfl).2 h⟩
  · intro l g'
    let n := max (heights one) (heights many)
    have hone : freshCells one =
        freshCells later ++ ⟨.and children, .fresh⟩ :: freshCells before := freshCells_append _ _ _
    have hmany : freshCells many =
        freshCells later ++ (freshCells (filters children) ++ freshCells before) := by
      simp [many, filters, freshCells]
    rw [drains_start_iff (n := n + 1) (by omega), drains_start_iff (n := n + 1) (by omega), hone, hmany]
    exact (row_standsIn n).drains_iff (machine_keeps_kind _) (fun _ => trivial) (fun _ _ _ _ _ => trivial)
      (.all _) ⟨children, rfl, rfl⟩ fun x hx => ⟨trivial, (of_mem_freshCells hx).2⟩

end Step

end GraphTraversal
