import Mathlib.Algebra.Order.BigOperators.Group.List
import Mathlib.Algebra.Order.Group.Nat
import GraphTraversal.Proofs.Run.Demand
import GraphTraversal.Proofs.Run.Tally

/-! # What an error leaves behind

When a run brings an error, whatever made values before it has been emptied.  So no value can come next
unless some step is evaluated first.
-/

namespace GraphTraversal

variable {σ α : Type}

/-- The last step that makes values, limits aside, holds none. -/
def Dry (kind : σ → Kind) : List (Cell σ) → Prop
  | [] => False
  | x :: before =>
    x.stage.buffer = [] ∧
      match kind x.step with
      | .limiting _ => Dry kind before
      | _ => True

section Consumers

/-- A consumer of one result that has an error sits behind a step that holds nothing. -/
theorem expandInto_dry (m : Machine σ) :
    Consumer.Steers (fun b : Option (Except Error Value) × Cell σ => b.1 = none ∧ b.2.stage.buffer = [])
      (fun b => (∃ e, b.1 = some (.error e)) → b.2.stage.buffer = []) (expandInto m takeOne) := by
  rintro ⟨_, x⟩ g r ⟨rfl, hx⟩
  cases r with
  | error e => exact ⟨by rintro ⟨⟩, fun _ _ => hx⟩
  | ok v =>
    simp only [expandInto]
    cases (m.expand x.step v g).result with
    | error e => exact ⟨by rintro ⟨⟩, fun _ _ => hx⟩
    | ok l =>
      cases l with
      | nil => exact ⟨fun _ => ⟨rfl, rfl⟩, by rintro ⟨⟩⟩
      | cons w l => exact ⟨by rintro ⟨⟩, by rintro - ⟨e, ⟨⟩⟩⟩

/-- A consumer of one result that has a value sits behind a step that was evaluated. -/
theorem expandInto_evaluated (m : Machine σ) :
    Consumer.Steers (fun b : Option (Except Error Value) × Cell (σ × Nat) => b.1 = none)
      (fun b => (∃ v, b.1 = some (.ok v)) → 0 < b.2.step.2) (expandInto m.tallied takeOne) := by
  rintro ⟨_, x⟩ g r rfl
  cases r with
  | error e => exact ⟨by rintro ⟨⟩, by rintro - ⟨v, ⟨⟩⟩⟩
  | ok v =>
    simp only [expandInto, Machine.tallied]
    cases (m.expand x.step.1 v g).result with
    | error e => exact ⟨by rintro ⟨⟩, by rintro - ⟨v, ⟨⟩⟩⟩
    | ok l =>
      cases l with
      | nil => exact ⟨fun _ => rfl, by rintro ⟨⟩⟩
      | cons w l => exact ⟨by rintro ⟨⟩, fun _ _ => Nat.succ_pos _⟩

/-- A barrier stops a consumer of one result only for an error. -/
theorem gatherInto_stops :
    Consumer.Steers (fun b : Option (Except Error Value) × Cell σ => b.1 = none)
      (fun b => ∃ e, b.1 = some (.error e)) (gatherInto takeOne) := by
  rintro ⟨_, x⟩ g r rfl
  cases r with
  | error e => exact ⟨by rintro ⟨⟩, fun _ => ⟨e, rfl⟩⟩
  | ok v => exact ⟨fun _ => rfl, by rintro ⟨⟩⟩

end Consumers

section Draws

variable {m : Machine σ}

theorem Dry.cons_of_ne_limiting {kind : σ → Kind} {x : Cell σ} {before : List (Cell σ)}
    (hb : x.stage.buffer = []) (hk : ∀ quota, kind x.step ≠ .limiting quota) :
    Dry kind (x :: before) := by
  refine ⟨hb, ?_⟩
  split
  · rename_i quota hquota
    exact absurd hquota (hk quota)
  · trivial

/-- An error that comes through a barrier or out of it finds it empty. -/
theorem released_dry (hm : m.Keeps m.kind) {o : Run σ (Option (Except Error Value) × Cell σ)}
    (hb : o.reply.state.2.stage.buffer = [])
    (hk : ∀ quota, m.kind o.reply.state.2.step ≠ .limiting quota) {e : Error}
    (h : (o.released m takeOne).reply.state = some (.error e)) :
    Dry m.kind (o.released m takeOne).cells := by
  have hkind (l : List Value) (g : Graph) (quota : Nat) :
      m.kind (m.release o.reply.state.2.step l g).state ≠ .limiting quota := by
    rw [hm.release]
    exact hk quota
  revert h
  simp only [Run.released]
  split
  · exact fun _ => .cons_of_ne_limiting hb hk
  · split
    · exact fun _ => .cons_of_ne_limiting hb (hkind _ _)
    · rename_i l _
      intro h
      cases l with
      | nil => exact .cons_of_ne_limiting rfl (hkind _ _)
      | cons v l => cases h

/-- When an error is drawn, nothing is left that could come next without an evaluation. -/
theorem dry_of_error (hm : m.Keeps m.kind) (xs : List (Cell σ)) (source : List Value) (g : Graph)
    {e : Error} (h : (m.cellProducer (xs, source) g).result = some (.error e)) :
    Dry m.kind (m.cellProducer (xs, source) g).state.1 := by
  induction xs generalizing g with
  | nil => cases source <;> cases h
  | cons x before ih =>
    obtain ⟨s, ⟨held, gathered, emitted, exhausted⟩⟩ := x
    cases held with
    | cons v l => simp [Machine.cellProducer, run, offer, takeOne] at h
    | nil =>
      cases exhausted with
      | true => simp [Machine.cellProducer, run, offer] at h
      | false =>
        cases hk : m.kind s with
        | limiting quota =>
          have hx : IsLimit m quota ⟨s, ⟨[], gathered, emitted, false⟩⟩ := ⟨hk, rfl⟩
          by_cases hmet : quota ≤ emitted
          · rw [(cellProducer_met hx hmet before source g).1] at h
            cases h
          · rw [cellProducer_limit hm hx (Nat.lt_of_not_le hmet) rfl before source g rfl] at h ⊢
            dsimp only at h ⊢
            rw [h]
            refine ⟨rfl, ?_⟩
            simp only [Cell.afterDraw, hk]
            exact ih g h
        | expanding =>
          have hsteers := run_steers m before source (expandInto_dry m)
            (a := (none, ⟨s, ⟨[], gathered, emitted, false⟩⟩)) g ⟨rfl, rfl⟩
          obtain ⟨⟨hkind, -⟩, -⟩ := run_keeps hm before source (expandInto_unspent hm takeOne .expanding)
            (a := (none, ⟨s, ⟨[], gathered, emitted, false⟩⟩)) g ⟨hk, rfl⟩
          simp only [Machine.cellProducer, run_of_empty, hk] at h ⊢
          generalize run m before source (expandInto m takeOne) _ g = o at h hsteers hkind ⊢
          refine .cons_of_ne_limiting ?_ fun quota => by simp [hkind]
          cases hmore : o.reply.more with
          | true => exact (hsteers.1 hmore).2
          | false => exact hsteers.2 hmore ⟨e, h⟩
        | gathering =>
          obtain ⟨⟨hs, hbuffer, -⟩, -⟩ := run_keeps hm before source (gatherInto_same takeOne s [])
            (a := (none, ⟨s, ⟨[], gathered, emitted, false⟩⟩)) g ⟨rfl, rfl, rfl⟩
          simp only [Machine.cellProducer, run_of_empty, hk] at h ⊢
          exact released_dry hm hbuffer (fun quota => by rw [hs, hk]; rintro ⟨⟩) h

/-- What a barrier releases has been made in an evaluation. -/
theorem released_evaluated {o : Run (σ × Nat) (Option (Except Error Value) × Cell (σ × Nat))}
    (hstopped : o.reply.more = false → ∃ e, o.reply.state.1 = some (.error e)) {v : Value}
    (h : (o.released m.tallied takeOne).reply.state = some (.ok v)) :
    ∃ y ∈ (o.released m.tallied takeOne).cells, 0 < y.step.2 := by
  revert h
  simp only [Run.released]
  split
  · rename_i hmore
    intro h
    obtain ⟨e, he⟩ := hstopped (by simpa using hmore)
    cases he.symm.trans h
  · split <;> exact fun _ => ⟨_, List.mem_cons_self, Nat.succ_pos _⟩

/-- If nothing is left in the buffers, a value that is drawn has been made in an evaluation. -/
theorem evaluated_of_dry (hm : m.Keeps m.kind) (xs : List (Cell (σ × Nat))) (source : List Value)
    (g : Graph) (hdry : Dry m.tallied.kind xs) {v : Value}
    (h : (m.tallied.cellProducer (xs, source) g).result = some (.ok v)) :
    ∃ y ∈ (m.tallied.cellProducer (xs, source) g).state.1, 0 < y.step.2 := by
  induction xs generalizing g with
  | nil => exact hdry.elim
  | cons x before ih =>
    obtain ⟨s, ⟨held, gathered, emitted, exhausted⟩⟩ := x
    obtain ⟨rfl, hrest⟩ : held = [] ∧ _ := hdry
    cases exhausted with
    | true => simp [Machine.cellProducer, run, offer] at h
    | false =>
      cases hk : m.tallied.kind s with
      | limiting quota =>
        have hx : IsLimit m.tallied quota ⟨s, ⟨[], gathered, emitted, false⟩⟩ := ⟨hk, rfl⟩
        simp only [hk] at hrest
        by_cases hmet : quota ≤ emitted
        · rw [(cellProducer_met hx hmet before source g).1] at h
          cases h
        · rw [cellProducer_limit hm.tallied hx (Nat.lt_of_not_le hmet) rfl before source g rfl] at h ⊢
          obtain ⟨y, hy, hpos⟩ := ih g hrest h
          exact ⟨y, List.mem_cons_of_mem _ hy, hpos⟩
      | expanding =>
        have hsteers := run_steers m.tallied before source (expandInto_evaluated m)
          (a := (none, ⟨s, ⟨[], gathered, emitted, false⟩⟩)) g rfl
        simp only [Machine.cellProducer, run_of_empty, hk] at h ⊢
        generalize run m.tallied before source (expandInto m.tallied takeOne) _ g = o at h hsteers ⊢
        refine ⟨_, List.mem_cons_self, ?_⟩
        cases hmore : o.reply.more with
        | true => cases (hsteers.1 hmore).symm.trans h
        | false => exact hsteers.2 hmore ⟨v, h⟩
      | gathering =>
        have hsteers := run_steers m.tallied before source gatherInto_stops
          (a := (none, ⟨s, ⟨[], gathered, emitted, false⟩⟩)) g rfl
        simp only [Machine.cellProducer, run_of_empty, hk] at h ⊢
        exact released_evaluated hsteers.2 h

theorem Dry.agree {τ : Type} {S : σ → τ → Prop} {kind : σ → Kind} {kind' : τ → Kind}
    (hkind : ∀ {s t}, S s t → kind s = kind' t) {xs : List (Cell σ)} {ys : List (Cell τ)}
    (h : List.Forall₂ (Cell.Agree S) xs ys) (hdry : Dry kind' ys) : Dry kind xs := by
  induction h with
  | nil => exact hdry
  | cons hxy _ ih =>
    obtain ⟨hs, t⟩ := hxy
    obtain ⟨hb, hrest⟩ := hdry
    refine ⟨hb, ?_⟩
    dsimp only at hrest ⊢
    rw [hkind hs]
    split
    · rename_i hquota
      rw [hquota] at hrest
      exact ih hrest
    · trivial

/-- A pull that brings an error leaves nothing that could come next without an evaluation. -/
theorem pull_dry (hm : m.Keeps m.kind) (steps : List σ) (flow : Flow) (g : Graph) {e : Error}
    {p : Pull σ} (hp : flow.pull m steps g = p) (h : p.result = some (.error e)) :
    Dry m.kind (cells p.steps p.flow.stages) := by
  subst hp
  have hcells : cells (flow.pull m steps g).steps (flow.pull m steps g).flow.stages =
      (m.cellProducer (cells steps flow.stages, flow.source) g).state.1 :=
    cells_reverse _
  rw [hcells]
  exact dry_of_error hm _ _ g h

/-- If nothing is left in the buffers, a pull that brings a value evaluates a step. -/
theorem evaluations_pos (hm : m.Keeps m.kind) {steps : List σ} {flow : Flow}
    (hdry : Dry m.kind (cells steps flow.stages)) (g : Graph) {v : Value}
    (h : (flow.pull m steps g).result = some (.ok v)) : 0 < flow.evaluations m steps g := by
  have hdry' : Dry m.tallied.kind (cells (untallied steps) flow.stages) :=
    hdry.agree (fun hs => congr_arg m.kind hs) (cells_agree (untallied_agree steps) flow.stages)
  obtain ⟨y, hy, hpos⟩ := evaluated_of_dry hm _ flow.source g hdry'
    ((eq_of_rel_eqUpTo (pull_tallied m steps flow g).result).trans h)
  refine Nat.lt_of_lt_of_le hpos (List.le_sum_of_mem ?_)
  exact List.mem_map_of_mem (List.mem_map_of_mem (List.mem_reverse.2 hy))

end Draws

end GraphTraversal
