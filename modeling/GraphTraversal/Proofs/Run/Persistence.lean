import GraphTraversal.Step.Flow

/-! # What persists in a run

A step comes back from an evaluation changed.  Whatever every single evaluation leaves untouched, such
as the shape of a step without its cursors, a whole run leaves untouched as well.
-/

namespace GraphTraversal

variable {σ τ α : Type}

/-- Evaluating a step leaves what `norm` sees of it. -/
structure Machine.Keeps (m : Machine σ) (norm : σ → τ) : Prop where
  expand : ∀ s v g, norm (m.expand s v g).state = norm s
  release : ∀ s l g, norm (m.release s l g).state = norm s

def Consumer.Keeps (c : Consumer α) (I : α → Prop) : Prop :=
  ∀ a g r, I a → I (c a g r).state

section Runs

variable {m : Machine σ} {norm : σ → τ} {c : Consumer α} {I : α → Prop}

theorem offer_keeps (hc : c.Keeps I) (l : List Value) {a : α} (g : Graph) (ha : I a) :
    I (offer c l a g).1.state := by
  induction l generalizing a g with
  | nil => exact ha
  | cons v l ih =>
    simp only [offer]
    split
    · exact ih _ (hc a g _ ha)
    · exact hc a g _ ha

/-- What a consumer put around a cell keeps: the state of the consumer behind it, and the step. -/
def cellKeeps (norm : σ → τ) (I : α → Prop) (t : τ) : α × Cell σ → Prop :=
  fun (a, x) => I a ∧ norm x.step = t

theorem expandInto_keeps (hm : m.Keeps norm) (hc : c.Keeps I) (t : τ) :
    Consumer.Keeps (expandInto m c) (cellKeeps norm I t) := by
  rintro ⟨a, x⟩ g r ⟨ha, ht⟩
  cases r with
  | error e => exact ⟨hc a g _ ha, ht⟩
  | ok v =>
    have hstep := (hm.expand x.step v g).trans ht
    simp only [expandInto]
    cases (m.expand x.step v g).result with
    | error e => exact ⟨hc a _ _ ha, hstep⟩
    | ok l => exact ⟨offer_keeps hc l _ ha, hstep⟩

theorem limitInto_keeps (hc : c.Keeps I) (quota : Nat) (t : τ) :
    Consumer.Keeps (limitInto quota c) (cellKeeps norm I t) := by
  rintro ⟨a, x⟩ g r ⟨ha, ht⟩
  have ha' := hc a g r ha
  cases r with
  | error e => exact ⟨ha', ht⟩
  | ok v =>
    simp only [limitInto]
    split <;> exact ⟨ha', ht⟩

theorem gatherInto_keeps (hc : c.Keeps I) (t : τ) :
    Consumer.Keeps (gatherInto c) (cellKeeps norm I t) := by
  rintro ⟨a, x⟩ g r ⟨ha, ht⟩
  cases r with
  | error e => exact ⟨hc a g _ ha, ht⟩
  | ok v => exact ⟨ha, ht⟩

theorem run_keeps (hm : m.Keeps norm) (xs : List (Cell σ)) (source : List Value) {α : Type}
    {c : Consumer α} {I : α → Prop} (hc : c.Keeps I) {a : α} (g : Graph) (ha : I a) :
    I (run m xs source c a g).reply.state ∧
      (run m xs source c a g).cells.map (norm ·.step) = xs.map (norm ·.step) := by
  induction xs generalizing α c I a g with
  | nil => exact ⟨offer_keeps hc source g ha, rfl⟩
  | cons x before ih =>
    have hb := offer_keeps hc x.stage.buffer g ha
    simp only [run]
    generalize offer c x.stage.buffer a g = o at hb
    split
    · exact ⟨hb, rfl⟩
    · cases m.kind x.step with
      | expanding =>
        obtain ⟨⟨hb', ht⟩, hcells⟩ := ih (expandInto_keeps hm hc (norm x.step))
          (a := (o.1.state, ⟨x.step, { x.stage with buffer := o.2 }⟩)) o.1.graph ⟨hb, rfl⟩
        exact ⟨hb', List.cons_eq_cons.2 ⟨ht, hcells⟩⟩
      | limiting quota =>
        dsimp only
        split
        · exact ⟨hb, rfl⟩
        · obtain ⟨⟨hb', ht⟩, hcells⟩ := ih (limitInto_keeps hc quota (norm x.step))
            (a := (o.1.state, ⟨x.step, { x.stage with buffer := o.2 }⟩)) o.1.graph ⟨hb, rfl⟩
          exact ⟨hb', List.cons_eq_cons.2 ⟨ht, hcells⟩⟩
      | gathering =>
        obtain ⟨⟨hb', ht⟩, hcells⟩ := ih (gatherInto_keeps hc (norm x.step))
          (a := (o.1.state, ⟨x.step, { x.stage with buffer := o.2 }⟩)) o.1.graph ⟨hb, rfl⟩
        dsimp only
        generalize run m before source (gatherInto c) _ _ = o at hb' ht hcells ⊢
        have hstep := (hm.release o.reply.state.2.step o.reply.state.2.stage.gathered.reverse
          o.reply.graph).trans ht
        split
        · exact ⟨hb', List.cons_eq_cons.2 ⟨ht, hcells⟩⟩
        · split
          · exact ⟨hc _ _ _ hb', List.cons_eq_cons.2 ⟨hstep, hcells⟩⟩
          · exact ⟨offer_keeps hc _ _ hb', List.cons_eq_cons.2 ⟨hstep, hcells⟩⟩

/-- A run over the cells of steps leaves what `norm` sees of the steps. -/
theorem run_cells_keeps (hm : m.Keeps norm) (steps : List σ) (stages : List Stage)
    (source : List Value) (c : Consumer α) (a : α) (g : Graph) :
    ((run m (cells steps stages) source c a g).cells.reverse.map (·.step)).map norm =
      steps.map norm := by
  obtain ⟨-, hcells⟩ := run_keeps hm (cells steps stages) source (c := c) (I := fun _ => True)
    (fun _ _ _ _ => trivial) (a := a) g trivial
  rw [List.map_map, List.map_reverse]
  apply (congrArg List.reverse hcells).trans
  rw [← List.map_reverse, cells, List.reverse_reverse, List.map_map]
  change (List.zip steps _).map (norm ∘ Prod.fst) = _
  rw [← List.map_map, List.map_fst_zip (by simp; omega)]

/-- A pull leaves what `norm` sees of the steps. -/
theorem pull_keeps (hm : m.Keeps norm) (steps : List σ) (flow : Flow) (g : Graph) :
    (flow.pull m steps g).steps.map norm = steps.map norm :=
  run_cells_keeps hm steps flow.stages flow.source _ _ g

theorem firstResult_keeps (hm : m.Keeps norm) (steps : List σ) (v : Value) (g : Graph) :
    (firstResult m steps v g).state.map norm = steps.map norm :=
  pull_keeps hm steps _ g

theorem allResults_keeps (hm : m.Keeps norm) (steps : List σ) (v : Value) (g : Graph) :
    (allResults m steps v g).state.map norm = steps.map norm :=
  run_cells_keeps hm steps _ _ _ _ g

end Runs

end GraphTraversal
