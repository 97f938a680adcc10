import GraphTraversal.Proofs.Strategy.Idempotence
import GraphTraversal.Proofs.Traversal.Peeking
import GraphTraversal.Proofs.Traversal.ReadOnly

/-! # Rejected queries

A strategy that finds a fault has changed nothing, and those before it are done.  So strategies that
were applied and refused the pipeline refuse it again for the same reason, however often they are
applied, and leave it as the first time has left it.  The first pull of such a query delivers the
error and ends the run, which from then on has nothing to deliver and never reaches the graph.
-/

namespace GraphTraversal

/-! ## Strategies applied again -/

namespace Strategy

/-- A strategy that finds a fault leaves the pipeline as it is. -/
theorem mapLevels_of_failure {s : Strategy} {p : Pipeline} {e : Error}
    (h : (s.applyTo p).failure = some e) : p.mapLevels s.behaviour.reshape = p := by
  rcases s.faultless_or_reshape_eq with hs | hs
  · simp [passes_of_faultless hs] at h
  · exact mapLevels_of_reshape_eq hs p

/-- If later strategies respect earlier ones, the second verdict is the first, and the pipeline stays
as it came out of the first application. -/
theorem applyAll_again {l : List Strategy} (hl : l.Pairwise fun s t => t.Respects s) (p : Pipeline) :
    (applyAll l (applyAll l p).pipeline).failure = (applyAll l p).failure ∧
      (applyAll l (applyAll l p).pipeline).pipeline = (applyAll l p).pipeline := by
  induction l generalizing p with
  | nil => exact ⟨rfl, rfl⟩
  | cons s l ih =>
    obtain ⟨hs, hl⟩ := List.pairwise_cons.1 hl
    cases hfirst : (s.applyTo p).failure with
    | some e =>
      have hsame : (s.applyTo p).pipeline = p := mapLevels_of_failure hfirst
      simp [applyAll_cons_of_failure hfirst, hsame]
    | none =>
      obtain ⟨hfailure, hpipeline⟩ := applyAll_cons hfirst l
      rw [hfailure, hpipeline]
      -- The first strategy is done and stays so, and the others are applied to what it has made.
      have hdone := (done_of_applyTo hfirst).applyAll hs
      obtain ⟨hfailure', hpipeline'⟩ := applyAll_cons hdone.passes l
      rw [hfailure', hpipeline', Behaviour.mapLevels_eq_self hdone.settled]
      exact ih hl (p.mapLevels s.behaviour.reshape)

end Strategy

namespace StrategySet

/-- A set that calls with built-in strategies make from the empty or the standard one. -/
def OfBuiltIns (set : StrategySet) : Prop :=
  ∃ init calls, (init = .empty ∨ init = .standard) ∧
    (∀ c ∈ calls, ∀ s, c.added? = some s → s.BuiltIn) ∧ set = performAll calls init

theorem OfBuiltIns.apply_again {set : StrategySet} (h : set.OfBuiltIns) (p : Pipeline) :
    (set.apply (set.apply p).pipeline).failure = (set.apply p).failure ∧
      (set.apply (set.apply p).pipeline).pipeline = (set.apply p).pipeline := by
  obtain ⟨init, calls, hinit, hcalls, rfl⟩ := h
  apply Strategy.applyAll_again
  exact (valid_performAll hinit calls).pairwise_respects (builtIn_performAll hinit hcalls)

end StrategySet

namespace Query

/-! ## After the end -/

theorem Spent.hasNext {q : Query} (h : q.Spent) (g : Graph) : q.hasNext g = ⟨.ok false, q, g⟩ := by
  simp [Query.hasNext, h.peeked, Query.pull, h.progress, Query.advance]

theorem Spent.applyStrategies {q : Query} (h : q.Spent) : q.applyStrategies.1.Spent := by
  rw [Query.applyStrategies]
  split
  · exact h
  · exact ⟨h.peeked, h.progress⟩

theorem Spent.extend {q : Query} (h : q.Spent) (clauses : List Clause) :
    ((q.extend clauses).toOption.getD q).Spent := by
  cases hq : q.extend clauses with
  | error e => exact h
  | ok q' =>
    obtain ⟨t, -, rfl⟩ := Except.exists_of_map hq
    exact ⟨h.peeked, h.progress⟩

/-- No call brings a run back that has ended, and none reaches the graph. -/
theorem Spent.perform {q : Query} (h : q.Spent) (g : Graph) (c : Call) :
    (∀ q', (c.perform q g).1 = some q' → q'.Spent) ∧ (c.perform q g).2 = g := by
  cases c with
  | extend clauses => simpa [Call.perform] using h.extend clauses
  | applyStrategies => simpa [Call.perform] using h.applyStrategies
  | next => simpa [Call.perform, h.next] using h
  | hasNext => simpa [Call.perform, h.hasNext] using h
  | toList | iterate =>
    simp [Call.perform, iterate, toList, drain, drainRun, h.progress]

/-- Whatever is called, there is nothing to deliver and the graph stays as it is. -/
def Silent (q : Query) : Prop :=
  ∀ (g : Graph) (calls : List Call), (performAll calls q g).2 = g ∧
    ∀ q', (performAll calls q g).1 = some q' →
      (q'.next g).value = none ∧ (q'.hasNext g).value = .ok false

theorem Spent.silent {q : Query} (h : q.Spent) : q.Silent := by
  intro g calls
  induction calls generalizing q with
  | nil =>
    refine ⟨rfl, ?_⟩
    rintro _ ⟨⟩
    simp [h.next, h.hasNext]
  | cons c calls ih =>
    obtain ⟨hquery, hgraph⟩ := h.perform g c
    rw [performAll]
    generalize c.perform q g = after at hquery hgraph
    obtain ⟨after, g'⟩ := after
    obtain rfl : g' = g := hgraph
    cases after with
    | none => simp
    | some q' => exact ih (hquery q' rfl)

/-! ## One error and nothing else -/

/-- Whichever call comes first delivers the error, and then the query is silent. -/
structure DeliversOnly (q : Query) (e : Error) (g : Graph) : Prop where
  next : (q.next g).value = some (.error e) ∧ (q.next g).graph = g ∧ (q.next g).query.Silent
  hasNext : (q.hasNext g).value = .error e ∧ (q.hasNext g).graph = g ∧ (q.hasNext g).query.Silent
  toList : q.toList g = (.error e, g)

theorem deliversOnly_of_prepare {q : Query} (hpending : q.progress = .pending)
    (hpeeked : q.peeked = none) {e : Error} (h : q.prepare.2 = some e) (g : Graph) :
    q.DeliversOnly e g := by
  obtain ⟨hsame, hfinished⟩ := q.prepare_progress
  rw [h] at hfinished
  have hspent : q.prepare.1.Spent := ⟨hsame.trans hpeeked, hfinished⟩
  have hpull : q.pull g = ⟨some (.error e), q.prepare.1, g⟩ := by
    simp only [pull, hpending]
    generalize q.prepare = prepared at h
    obtain ⟨q', failure⟩ := prepared
    subst h
    rfl
  have hnext : q.next g = ⟨some (.error e), q.prepare.1, g⟩ := by simp [Query.next, hpeeked, hpull]
  have hlook : q.hasNext g = ⟨.error e, q.prepare.1, g⟩ := by simp [Query.hasNext, hpeeked, hpull]
  refine ⟨by simp [hnext, hspent.silent], by simp [hlook, hspent.silent], ?_⟩
  simp only [Query.toList, drain, hpending]
  generalize q.prepare = prepared at h
  obtain ⟨q', failure⟩ := prepared
  subst h
  rfl

/-! ## Rejected queries -/

def applyTimes (q : Query) : Nat → Query
  | 0 => q
  | n + 1 => (q.applyTimes n).applyStrategies.1

/-- A query that has not begun and whose strategies refuse it and leave the pipeline `p`. -/
structure Rejected (q : Query) (e : Error) (p : Pipeline) : Prop where
  bound : q.bound
  pending : q.progress = .pending
  peeked : q.peeked = none
  unprepared : q.prepared = false
  builtIn : q.strategies.OfBuiltIns
  fails : (q.strategies.apply q.traversal.pipeline).failure = some e
  leaves : (q.strategies.apply q.traversal.pipeline).pipeline = p

namespace Rejected

variable {q : Query} {e : Error} {p : Pipeline} (h : q.Rejected e p)

include h

theorem applyStrategies_eq :
    q.applyStrategies = (q.withPipeline p, q.strategies.apply q.traversal.pipeline) := by
  simp [Query.applyStrategies, applySet, h.unprepared, h.fails, h.leaves, withPipeline]

/-- A query that was refused is refused again, for the same reason and with the same pipeline left. -/
theorem applyStrategies : q.applyStrategies.1.Rejected e p := by
  rw [h.applyStrategies_eq]
  have hagain := h.builtIn.apply_again q.traversal.pipeline
  rw [h.fails, h.leaves] at hagain
  exact ⟨h.bound, h.pending, h.peeked, h.unprepared, h.builtIn, hagain.1, hagain.2⟩

theorem applyTimes (n : Nat) : (q.applyTimes n).Rejected e p := by
  induction n with
  | zero => exact h
  | succ n ih => exact ih.applyStrategies

theorem deliversOnly (g : Graph) : q.DeliversOnly e g := by
  apply deliversOnly_of_prepare h.pending h.peeked
  simp [prepare, h.bound, h.applyStrategies_eq, h.fails]

end Rejected

theorem anonymous_applyTimes (t : Traversal) (n : Nat) :
    ((anonymous t).applyTimes n).bound = false ∧ ((anonymous t).applyTimes n).progress = .pending ∧
      ((anonymous t).applyTimes n).peeked = none := by
  induction n with
  | zero => exact ⟨rfl, rfl, rfl⟩
  | succ n ih =>
    rw [applyTimes, Query.applyStrategies]
    split
    · exact ih
    · exact ih

/-- A query whose built-in strategies refuse its traversal never runs.  However often the strategies
are applied, they refuse it for the same reason, leave the same pipeline and do not count as applied;
then the first call delivers the error, later calls find nothing, and the graph stays as it is.  In the
same way a query without a graph delivers the error that says so, and nothing else. -/
theorem rejected_never_runs (n : Nat) (g : Graph) :
    (∀ {src : Source} {clauses : List Clause} {q : Query} {e : Error}, src.strategies.OfBuiltIns →
      src.build clauses = .ok q → (q.strategies.apply q.traversal.pipeline).failure = some e →
      (q.applyTimes n).applyStrategies.2.failure = some e ∧
        (q.applyTimes (n + 1)).traversal.pipeline =
          (q.strategies.apply q.traversal.pipeline).pipeline ∧
        (q.applyTimes n).prepared = false ∧ (q.applyTimes n).DeliversOnly e g) ∧
      ∀ t : Traversal, ((anonymous t).applyTimes n).DeliversOnly (.execution .unbound) g := by
  constructor
  · intro src clauses q e hsrc hq he
    obtain ⟨t, -, rfl⟩ := Except.exists_of_map hq
    have hrejected : (src.query t).Rejected e _ := ⟨rfl, rfl, rfl, rfl, hsrc, he, rfl⟩
    have hn := hrejected.applyTimes n
    refine ⟨?_, ?_, hn.unprepared, hn.deliversOnly g⟩
    · rw [hn.applyStrategies_eq]
      exact hn.fails
    · rw [applyTimes, hn.applyStrategies_eq]
      rfl
  · intro t
    obtain ⟨hbound, hpending, hpeeked⟩ := anonymous_applyTimes t n
    apply deliversOnly_of_prepare hpending hpeeked
    simp [prepare, hbound]

end Query

def StrategySet.checked : StrategySet where
  members := [.subgraph (some (.ofLabel "person")) none, .identityRemoval, .incidentToAdjacent,
    .lambdaRestriction, .readOnly]

theorem StrategySet.ofBuiltIns_checked : checked.OfBuiltIns := by
  refine ⟨.standard, [.add .lambdaRestriction, .add .readOnly,
    .add (.subgraph (some (.ofLabel "person")) none)], .inr rfl, ?_, rfl⟩
  simp [Call.added?, Strategy.BuiltIn.lambdaRestriction, Strategy.BuiltIn.readOnly,
    Strategy.BuiltIn.subgraph]

/-- The second check finds a step that writes in a child, after an identity was dropped and a filter
was put in; the strategies are applied twice before the query is asked for a value. -/
theorem Query.rejected_drop :
    let e := Error.verification "ReadOnlyStrategy" (.mutates "drop")
    ∃ q, (Source.ofStrategies .checked).build [.vertices [], .identity, .filter [.drop]] = .ok q ∧
      (q.applyTimes 2).traversal.pipeline.steps.map (·.name) = ["V", "filter", "filter"] ∧
      (q.applyTimes 2).applyStrategies.2.failure = some e ∧
      ((q.applyTimes 2).next .acquaintance).value = some (.error e) ∧
      ((q.applyTimes 2).hasNext .acquaintance).value = .error e ∧
      ((q.applyTimes 2).next .acquaintance).query.Silent := by
  intro e
  have hbuilt : (Source.ofStrategies .checked).build [.vertices [], .identity, .filter [.drop]] =
    .ok _ := rfl
  obtain ⟨hfails, -, -, hdelivers⟩ :=
    (rejected_never_runs 2 .acquaintance).1 (e := e) StrategySet.ofBuiltIns_checked hbuilt rfl
  exact ⟨_, hbuilt, rfl, hfails, hdelivers.next.1, hdelivers.hasNext.1, hdelivers.next.2.2⟩

end GraphTraversal
