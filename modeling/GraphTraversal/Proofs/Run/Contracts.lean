import GraphTraversal.Step.Flow

/-! # Contracts of consumers

A consumer may promise to stay in one class of states as long as it wants more and to stop in another.
A run keeps the promise for it: if it ends, the consumer is in the first class, and if it was stopped,
in the second.  Steps that stand between the two make promises of their own for the consumer behind them.
-/

namespace GraphTraversal

variable {σ α : Type}

def Reply.Steers (I J : α → Prop) (q : Reply α) : Prop :=
  (q.more = true → I q.state) ∧ (q.more = false → J q.state)

/-- From `I` the consumer stays in `I` as long as it wants more, and it stops in `J`. -/
def Consumer.Steers (I J : α → Prop) (c : Consumer α) : Prop :=
  ∀ a g r, I a → (c a g r).Steers I J

section Consumers

variable {c : Consumer α} {I J : α → Prop}

theorem offer_steers (hc : c.Steers I J) (l : List Value) {a : α} (g : Graph) (ha : I a) :
    (offer c l a g).1.Steers I J := by
  induction l generalizing a g with
  | nil => exact ⟨fun _ => ha, nofun⟩
  | cons v l ih =>
    have hreply := hc a g (.ok v) ha
    rw [offer]
    split
    · rename_i hmore
      exact ih _ (hreply.1 hmore)
    · exact hreply

theorem expandInto_steers (m : Machine σ) (hc : c.Steers I J) :
    Consumer.Steers (fun b : α × Cell σ => I b.1) (fun b => J b.1) (expandInto m c) := by
  rintro ⟨a, x⟩ g r ha
  cases r with
  | error e => exact hc a g _ ha
  | ok v =>
    simp only [expandInto]
    cases (m.expand x.step v g).result with
    | error e => exact hc a _ _ ha
    | ok l => exact offer_steers hc l _ ha

/-- A limit that is met stops the run although the consumer behind it wants more. -/
theorem limitInto_steers (hc : c.Steers I J) (quota : Nat) :
    Consumer.Steers (fun b : α × Cell σ => I b.1 ∧ b.2.stage.exhausted = false)
      (fun b => (b.2.stage.exhausted = true → I b.1) ∧ (b.2.stage.exhausted = false → J b.1))
      (limitInto quota c) := by
  rintro ⟨a, x⟩ g r ⟨ha, hx⟩
  dsimp only at ha hx
  have hreply := hc a g r ha
  cases r with
  | error e =>
    refine ⟨fun h => ⟨hreply.1 h, hx⟩, fun h => ⟨fun h' => ?_, fun _ => hreply.2 h⟩⟩
    exact absurd (hx.symm.trans h') Bool.false_ne_true
  | ok v =>
    simp only [limitInto]
    split
    · rename_i hmet
      obtain ⟨hmore, -⟩ := (Bool.and_eq_true _ _).mp hmet
      exact ⟨nofun, fun _ => ⟨fun _ => hreply.1 hmore, nofun⟩⟩
    · refine ⟨fun h => ⟨hreply.1 h, hx⟩, fun h => ⟨fun h' => ?_, fun _ => hreply.2 h⟩⟩
      exact absurd (hx.symm.trans h') Bool.false_ne_true

theorem gatherInto_steers (hc : c.Steers I J) :
    Consumer.Steers (fun b : α × Cell σ => I b.1) (fun b => J b.1) (gatherInto c) := by
  rintro ⟨a, x⟩ g r ha
  cases r with
  | error e => exact hc a g _ ha
  | ok v => exact ⟨fun _ => ha, nofun⟩

end Consumers

/-- A run keeps the promise of its consumer. -/
theorem run_steers (m : Machine σ) (xs : List (Cell σ)) (source : List Value) {α : Type}
    {c : Consumer α} {I J : α → Prop} (hc : c.Steers I J) {a : α} (g : Graph) (ha : I a) :
    (run m xs source c a g).reply.Steers I J := by
  induction xs generalizing α a g with
  | nil => exact offer_steers hc source g ha
  | cons x before ih =>
    have hb := offer_steers hc x.stage.buffer g ha
    simp only [run]
    generalize offer c x.stage.buffer a g = o at hb
    split
    · exact hb
    · rename_i hopen
      obtain ⟨hmore, hx⟩ : o.1.more = true ∧ x.stage.exhausted = false := by simpa using hopen
      cases m.kind x.step with
      | expanding => exact ih (expandInto_steers m hc) o.1.graph (hb.1 hmore)
      | limiting quota =>
        dsimp only
        split
        · exact hb
        · obtain ⟨hended, hstopped⟩ := ih (limitInto_steers hc quota)
            (a := (o.1.state, ⟨x.step, { x.stage with buffer := o.2 }⟩)) o.1.graph ⟨hb.1 hmore, hx⟩
          generalize run m before source (limitInto quota c) _ _ = o' at hended hstopped ⊢
          cases hm : o'.reply.more with
          | true => exact ⟨fun _ => (hended hm).1, fun h => by simp at h⟩
          | false =>
            exact ⟨fun h => (hstopped hm).1 (by simpa using h),
              fun h => (hstopped hm).2 (by simpa using h)⟩
      | gathering =>
        obtain ⟨hended, hstopped⟩ := ih (gatherInto_steers hc)
          (a := (o.1.state, ⟨x.step, { x.stage with buffer := o.2 }⟩)) o.1.graph (hb.1 hmore)
        dsimp only
        generalize run m before source (gatherInto c) _ _ = o' at hended hstopped ⊢
        split
        · rename_i hm
          exact ⟨nofun, fun _ => hstopped (by simpa using hm)⟩
        · rename_i hm
          have ha' := hended (by simpa using hm)
          split
          · exact hc _ _ _ ha'
          · exact offer_steers hc _ _ ha'

end GraphTraversal
