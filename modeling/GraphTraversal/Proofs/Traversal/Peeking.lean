import GraphTraversal.Proofs.Run.Dryness
import GraphTraversal.Proofs.Step.Demand
import GraphTraversal.Traversal.Query

/-! # Looking ahead

However looking ahead and taking are mixed, what has been delivered, and after it the value that was
looked at and not yet taken, is a first part of what taking alone delivers.  Between two calls a query
holds either such a value, which comes next without an evaluation, or nothing that could.
-/

namespace GraphTraversal

theorem Step.machine_kind (n : Nat) : (Step.machine n).kind = Step.kind :=
  funext (Step.machine_layered.kind n)

namespace Query

/-! ## Taking alone -/

/-- What a `next` delivers that comes after `k` others. -/
def nth : Query → Graph → Nat → Option (Except Error Value)
  | q, g, 0 => (q.next g).value
  | q, g, k + 1 => (q.next g).query.nth (q.next g).graph k

theorem nth_zero (q : Query) (g : Graph) : q.nth g 0 = (q.next g).value := rfl

theorem nth_succ (q : Query) (g : Graph) (k : Nat) :
    q.nth g (k + 1) = (q.next g).query.nth (q.next g).graph k :=
  rfl

def runEvaluations (q : Query) (g : Graph) : Nat :=
  match q.progress with
  | .running flow =>
    let p := q.traversal.pipeline
    flow.evaluations p.machine p.steps g
  | _ => 0

def evaluations (q : Query) (g : Graph) : Nat :=
  match q.peeked with
  | some _ => 0
  | none =>
    match q.progress with
    | .pending =>
      match q.prepare with
      | (_, some _) => 0
      | (q, none) => q.runEvaluations g
    | _ => q.runEvaluations g

/-! ## The state between two calls -/

structure Spent (q : Query) : Prop where
  peeked : q.peeked = none
  progress : q.progress = .finished

theorem Spent.next {q : Query} (h : q.Spent) (g : Graph) : q.next g = ⟨none, q, g⟩ := by
  simp only [Query.next, h.peeked, Query.pull, h.progress, Query.advance]

theorem Spent.nth {q : Query} (h : q.Spent) (g : Graph) (k : Nat) : q.nth g k = none := by
  induction k with
  | zero => rw [nth_zero, h.next]
  | succ k ih => rw [nth_succ, h.next]; exact ih

/-- How preparing ends: with a run that has begun, or with an error that ends the run. -/
theorem prepare_progress (q : Query) :
    q.prepare.1.peeked = q.peeked ∧
      match q.prepare.2 with
      | none => ∃ flow, q.prepare.1.progress = .running flow
      | some _ => q.prepare.1.progress = .finished := by
  have happlied : q.applyStrategies.1.peeked = q.peeked := by
    rw [applyStrategies]
    split <;> rfl
  rw [prepare]
  split
  · exact ⟨rfl, rfl⟩
  · dsimp only
    split
    · exact ⟨happlied, rfl⟩
    · exact ⟨happlied, _, rfl⟩

/-- The values that can come next from the query are those that an evaluation makes. -/
def Unready (q : Query) : Prop :=
  ∀ g v, (q.next g).value = some (.ok v) → 0 < q.evaluations g

theorem Spent.unready {q : Query} (h : q.Spent) : q.Unready := by
  intro g v hv
  rw [h.next] at hv
  cases hv

/-- What a query that has been pulled may look like, by what the pull brought. -/
def Settled (q : Query) : Option (Except Error Value) → Prop
  | none => q.Spent
  | some (.error _) => q.Unready
  | some (.ok _) => q.peeked = none

/-- Advancing a run brings what its steps bring, with the steps as they come back. -/
theorem advance_running {q : Query} {flow : Flow} (h : q.progress = .running flow) (g : Graph)
    {p : Pull Step}
    (hp : flow.pull q.traversal.pipeline.machine q.traversal.pipeline.steps g = p) :
    q.advance g = ⟨p.result,
      { q.withPipeline { q.traversal.pipeline with steps := p.steps } with
        progress := if p.result.isSome then .running p.flow else .finished }, p.graph⟩ := by
  subst hp
  simp only [advance, h]
  split <;> rename_i hr <;> rw [hr] <;> rfl

theorem unready_of_dry {q : Query} {flow : Flow} (hpeeked : q.peeked = none)
    (hprogress : q.progress = .running flow)
    (hdry : Dry Step.kind (cells q.traversal.pipeline.steps flow.stages)) : q.Unready := by
  intro g v hv
  rw [next, hpeeked] at hv
  simp only [pull, hprogress, advance_running hprogress g rfl] at hv
  rw [← Step.machine_kind q.traversal.pipeline.height] at hdry
  simp only [evaluations, hpeeked, hprogress, runEvaluations]
  exact evaluations_pos (Step.machine_keeps_kind _) hdry g hv

theorem advance_settled {q : Query} {flow : Flow} (hpeeked : q.peeked = none)
    (hprogress : q.progress = .running flow) (g : Graph) :
    (q.advance g).query.Settled (q.advance g).value := by
  rw [advance_running hprogress g rfl]
  generalize hp : flow.pull q.traversal.pipeline.machine q.traversal.pipeline.steps g = p
  dsimp only
  cases hr : p.result with
  | none => exact ⟨hpeeked, rfl⟩
  | some r =>
    cases r with
    | ok v => exact hpeeked
    | error e =>
      have hdry := pull_dry (Step.machine_keeps_kind q.traversal.pipeline.height) _ _ g hp hr
      rw [Step.machine_kind] at hdry
      exact unready_of_dry hpeeked rfl hdry

theorem pull_settled {q : Query} (hpeeked : q.peeked = none) (g : Graph) :
    (q.pull g).query.Settled (q.pull g).value := by
  cases hprogress : q.progress with
  | running flow =>
    simp only [pull, hprogress]
    exact advance_settled hpeeked hprogress g
  | finished =>
    simp only [pull, hprogress, advance]
    exact ⟨hpeeked, hprogress⟩
  | pending =>
    obtain ⟨hsame, hprepared⟩ := q.prepare_progress
    simp only [pull, hprogress]
    generalize q.prepare = prepared at hsame hprepared
    obtain ⟨q', failure⟩ := prepared
    cases failure with
    | some e => exact Spent.unready ⟨hsame.trans hpeeked, hprepared⟩
    | none =>
      obtain ⟨flow, hflow⟩ := hprepared
      exact advance_settled (hsame.trans hpeeked) hflow g

/-! ## One call -/

/-- How looking ahead comes out: the value that was looked at before, or what a pull brings. -/
inductive Looked (q : Query) (g : Graph) : Answer (Except Error Bool) → Prop where
  | again {v : Value} (hq : q.peeked = some v) : Looked q g ⟨.ok true, q, g⟩
  | value {v : Value} {q' : Query} {g' : Graph} (hnext : q.next g = ⟨some (.ok v), q', g'⟩)
    (hq' : q'.peeked = none) : Looked q g ⟨.ok true, { q' with peeked := some v }, g'⟩
  | error {e : Error} {q' : Query} {g' : Graph} (hnext : q.next g = ⟨some (.error e), q', g'⟩)
    (hq' : q'.Unready) : Looked q g ⟨.error e, q', g'⟩
  | none {q' : Query} {g' : Graph} (hnext : q.next g = ⟨none, q', g'⟩) (hq' : q'.Spent) :
    Looked q g ⟨.ok false, q', g'⟩

theorem hasNext_looked (q : Query) (g : Graph) : Looked q g (q.hasNext g) := by
  cases hq : q.peeked with
  | some v =>
    rw [hasNext, hq]
    exact .again hq
  | none =>
    have hnext : q.next g = q.pull g := by rw [next, hq]
    have hsettled := pull_settled hq g
    rw [← hnext] at hsettled
    simp only [hasNext, hq, ← hnext]
    generalize ho : q.next g = o at hsettled
    obtain ⟨r, q', g'⟩ := o
    rcases r with _ | _ | _
    · exact .none ho hsettled
    · exact .error ho hsettled
    · exact .value ho hsettled

theorem next_peeked {q : Query} {v : Value} (hq : q.peeked = some v) (g : Graph) :
    q.next g = ⟨some (.ok v), { q with peeked := none }, g⟩ := by
  rw [next, hq]

theorem evaluations_peeked {q : Query} {v : Value} (hq : q.peeked = some v) (g : Graph) :
    q.evaluations g = 0 := by
  rw [evaluations, hq]

/-- When nothing comes next, nothing comes any more. -/
theorem spent_of_none {q q' : Query} {g g' : Graph} (h : q.next g = ⟨none, q', g'⟩) : q'.Spent := by
  cases hq : q.peeked with
  | some v =>
    rw [next_peeked hq] at h
    cases h
  | none =>
    have hsettled := pull_settled hq g
    rw [next, hq] at h
    dsimp only at h
    rw [h] at hsettled
    exact hsettled

theorem nth_of_none {q q' : Query} {g g' : Graph} (h : q.next g = ⟨none, q', g'⟩) (k : Nat) :
    q.nth g k = none := by
  cases k with
  | zero => rw [nth_zero, h]
  | succ k =>
    rw [nth_succ, h]
    exact (spent_of_none h).nth g' k

/-- A value that is kept comes first, and then what would have come after it. -/
theorem nth_keeping {q q' : Query} {g g' : Graph} {v : Value} (h : q.next g = ⟨some (.ok v), q', g'⟩)
    (hq' : q'.peeked = none) (k : Nat) :
    q.nth g k = ({ q' with peeked := some v } : Query).nth g' k := by
  cases k with
  | zero => rw [nth_zero, nth_zero, h, next_peeked rfl]
  | succ k =>
    rw [nth_succ, nth_succ, h, next_peeked rfl, ← hq']

/-! ## Looking and taking -/

inductive Look where
  | next
  | hasNext

/-- Calls in progress: what they have delivered, errors that were met while looking included, and the
query and the graph as they are by now. -/
structure Session where
  delivered : Results := []
  query : Query
  graph : Graph

/-- What has been delivered, followed by the value that was looked at and not yet taken. -/
def Session.seen (s : Session) : Results := s.delivered ++ s.query.peeked.toList.map .ok

def Look.perform (s : Session) : Look → Session
  | .next =>
    let o := s.query.next s.graph
    ⟨s.delivered ++ o.value.toList, o.query, o.graph⟩
  | .hasNext =>
    let o := s.query.hasNext s.graph
    ⟨s.delivered ++ (match o.value with
      | .ok _ => []
      | .error e => [.error e]), o.query, o.graph⟩

def lookAll (looks : List Look) (q : Query) (g : Graph) : Session :=
  looks.foldl Look.perform { query := q, graph := g }

/-- What has been delivered is what taking alone delivers first, and what is left is what it delivers
then. -/
structure Session.Follows (s : Session) (q : Query) (g : Graph) : Prop where
  delivered : ∀ i (h : i < s.delivered.length), q.nth g i = some s.delivered[i]
  rest : ∀ k, q.nth g (s.delivered.length + k) = s.query.nth s.graph k

namespace Session.Follows

variable {q : Query} {g : Graph} {d : Results} {q₁ q₂ : Query} {g₁ g₂ : Graph}

theorem same (h : Follows ⟨d, q₁, g₁⟩ q g) (hsame : ∀ k, q₁.nth g₁ k = q₂.nth g₂ k) :
    Follows ⟨d, q₂, g₂⟩ q g where
  delivered := h.delivered
  rest k := (h.rest k).trans (hsame k)

theorem deliver (h : Follows ⟨d, q₁, g₁⟩ q g) {r : Except Error Value} (hfirst : q₁.nth g₁ 0 = some r)
    (hrest : ∀ k, q₁.nth g₁ (k + 1) = q₂.nth g₂ k) : Follows ⟨d ++ [r], q₂, g₂⟩ q g where
  delivered i hi := by
    rw [List.length_append, List.length_singleton, Nat.lt_succ_iff_lt_or_eq] at hi
    obtain hi | rfl := hi
    · rw [List.getElem_append_left hi]
      exact h.delivered i hi
    · exact ((h.rest 0).trans hfirst).trans (by simp)
  rest k := by
    rw [List.length_append, List.length_singleton, Nat.add_right_comm, Nat.add_assoc]
    exact (h.rest (k + 1)).trans (hrest k)

theorem perform {s : Session} (h : s.Follows q g) (look : Look) : (look.perform s).Follows q g := by
  obtain ⟨d, q₁, g₁⟩ := s
  cases look with
  | next =>
    simp only [Look.perform]
    cases hnext : q₁.next g₁ with
    | mk r q₂ g₂ =>
      cases r with
      | none =>
        have hspent := spent_of_none hnext
        simp only [Option.toList_none, List.append_nil]
        exact h.same fun k => (nth_of_none hnext k).trans (hspent.nth g₂ k).symm
      | some r => exact h.deliver (congr_arg (·.value) hnext) fun k => by rw [nth_succ, hnext]
  | hasNext =>
    have hlooked := hasNext_looked q₁ g₁
    simp only [Look.perform]
    generalize q₁.hasNext g₁ = o at hlooked
    cases hlooked with
    | again hq =>
      simp only [List.append_nil]
      exact h
    | value hnext hq' =>
      simp only [List.append_nil]
      exact h.same (nth_keeping hnext hq')
    | error hnext hq' => exact h.deliver (congr_arg (·.value) hnext) fun k => by rw [nth_succ, hnext]
    | none hnext hq' =>
      simp only [List.append_nil]
      exact h.same fun k => (nth_of_none hnext k).trans (hq'.nth _ k).symm

end Session.Follows

theorem follows_lookAll (looks : List Look) (q : Query) (g : Graph) :
    (lookAll looks q g).Follows q g := by
  have h {s : Session} (hs : s.Follows q g) : (looks.foldl Look.perform s).Follows q g := by
    induction looks generalizing s with
    | nil => exact hs
    | cons look looks ih => exact ih (hs.perform look)
  exact h ⟨fun i hi => absurd hi (Nat.not_lt_zero i), fun k => by rw [List.length_nil, Nat.zero_add]⟩

theorem Session.Follows.nth_seen {s : Session} {q : Query} {g : Graph} (hs : s.Follows q g) (i : Nat)
    (h : i < s.seen.length) : q.nth g i = some s.seen[i] := by
  rw [← List.getElem?_eq_getElem h]
  by_cases hi : i < s.delivered.length
  · rw [hs.delivered i hi, Session.seen, List.getElem?_append_left hi, List.getElem?_eq_getElem hi]
  · cases hpeeked : s.query.peeked with
    | none => simp [Session.seen, hpeeked, hi] at h
    | some v =>
      obtain rfl : i = s.delivered.length := by
        simp only [Session.seen, hpeeked, Option.toList_some, List.map_cons, List.map_nil,
          List.length_append, List.length_singleton] at h
        omega
      have hfirst := (hs.rest 0).trans (congr_arg (·.value) (next_peeked hpeeked s.graph))
      rw [Nat.add_zero] at hfirst
      simpa [Session.seen, hpeeked] using hfirst

/-- Looking ahead loses, repeats and reorders nothing.  After any calls, what has been delivered with the
value that was looked at is a first part of what taking alone delivers.  Looking ahead finds a value
exactly if taking then delivers one without evaluating a step, and finds nothing exactly if taking alone
would deliver nothing any more. -/
theorem looking_follows_taking (q : Query) (g : Graph) (looks : List Look) :
    let s := lookAll looks q g
    let o := s.query.hasNext s.graph
    (∀ i (h : i < s.seen.length), q.nth g i = some s.seen[i]) ∧
      (o.value = .ok true ↔
        (∃ v, (o.query.next o.graph).value = some (.ok v)) ∧ o.query.evaluations o.graph = 0) ∧
      (o.value = .ok false ↔ ∀ k, s.delivered.length ≤ k → q.nth g k = none) := by
  intro s o
  have hs : s.Follows q g := follows_lookAll looks q g
  have hlooked : Looked s.query s.graph o := hasNext_looked s.query s.graph
  have hfirst := hs.rest 0
  rw [nth_zero, Nat.add_zero] at hfirst
  clear_value o
  refine ⟨hs.nth_seen, ?_⟩
  -- if something comes next, then what is left is not nothing
  have hleft {r : Except Error Value} (hr : (s.query.next s.graph).value = some r) :
      ¬∀ k, s.delivered.length ≤ k → q.nth g k = none := by
    intro h
    rw [h _ (Nat.le_refl _), hr] at hfirst
    cases hfirst
  cases hlooked with
  | @again v hq =>
    refine ⟨iff_of_true rfl ⟨⟨v, ?_⟩, evaluations_peeked hq _⟩,
      iff_of_false nofun (hleft (r := .ok v) ?_)⟩
    · rw [next_peeked hq]
    · rw [next_peeked hq]
  | @value v q' g' hnext hq' =>
    refine ⟨iff_of_true rfl ⟨⟨v, ?_⟩, evaluations_peeked rfl _⟩,
      iff_of_false nofun (hleft (r := .ok v) ?_)⟩
    · rw [next_peeked rfl]
    · rw [hnext]
  | @error e q' g' hnext hq' =>
    refine ⟨iff_of_false nofun ?_, iff_of_false nofun (hleft (r := .error e) ?_)⟩
    · rintro ⟨⟨v, hv⟩, hzero⟩
      exact (hq' g' v hv).ne' hzero
    · rw [hnext]
  | @none q' g' hnext hq' =>
    refine ⟨iff_of_false nofun ?_, iff_of_true rfl fun k hk => ?_⟩
    · rintro ⟨⟨v, hv⟩, -⟩
      rw [hq'.next] at hv
      cases hv
    · obtain ⟨j, rfl⟩ := Nat.exists_eq_add_of_le hk
      rw [hs.rest, nth_of_none hnext]

end Query

end GraphTraversal
