import GraphTraversal.Proofs.Step.Acts
import GraphTraversal.Proofs.Strategy.Checking
import GraphTraversal.Proofs.Strategy.Hiding
import GraphTraversal.Proofs.Traversal.Building
import GraphTraversal.Traversal.Source

/-! # Queries that only read

The check for steps that write is made once, when the strategies are applied, and a lambda is closed to
it.  From then on it is an invariant of the query, kept by every call that brings nothing which writes,
that its pipeline is read-only; before, that what the check does not see writes nothing and that the run
has not begun.
-/

namespace GraphTraversal

/-! ## Pulling -/

namespace Pipeline

variable {p : Pipeline} (hp : p.ReadOnly) (flow : Flow) (g : Graph)

include hp

theorem ReadOnly.graph_pull : (flow.pull p.machine p.steps g).graph = g :=
  (pull_agree Step.machine_layered.acts (p.acts_related hp le_rfl) flow rfl).kept

theorem ReadOnly.pull :
    ({ p with steps := (flow.pull p.machine p.steps g).steps } : Pipeline).ReadOnly := by
  refine Pipeline.readOnly_of_rewound ?_ hp
  rw [rewound_eq, rewound_eq]
  exact congr_arg (Pipeline.mk · p.mode) (pull_keeps (Step.machine_keeps p.height) p.steps flow g)

theorem ReadOnly.graph_allRemaining : (allRemaining p.machine p.steps flow g).graph = g :=
  (allRemaining_agree Step.machine_layered.acts (p.acts_related hp le_rfl) flow rfl).kept

end Pipeline

/-! ## Calls -/

namespace Query

inductive Call where
  | extend (clauses : List Clause)
  | applyStrategies
  | next
  | hasNext
  | toList
  | iterate

def Call.lambdas : Call → List Lambda
  | .extend clauses => Clause.allLambdas clauses
  | _ => []

/-- What a call leaves: the query, unless the call uses it up, and the graph.  Builder calls that are
refused leave the query as it was. -/
def Call.perform (q : Query) (g : Graph) : Call → Option Query × Graph
  | .extend clauses => (some ((q.extend clauses).toOption.getD q), g)
  | .applyStrategies => (some q.applyStrategies.1, g)
  | .next => (some (q.next g).query, (q.next g).graph)
  | .hasNext => (some (q.hasNext g).query, (q.hasNext g).graph)
  | .toList => (none, (q.toList g).2)
  | .iterate => (none, (q.iterate g).2)

/-- Calls one after another, as long as there is a query. -/
def performAll : List Call → Query → Graph → Option Query × Graph
  | [], q, g => (some q, g)
  | c :: l, q, g =>
    match c.perform q g with
    | (some q, g) => performAll l q g
    | (none, g) => (none, g)

/-- Whether a call adds no step that writes to a query that its strategies have passed already. -/
def Call.allowed (q : Query) : Call → Bool
  | .extend clauses => !q.prepared || !Clause.anyWrites clauses
  | _ => true

/-- Whether every call is such a call, at the time when it is made. -/
def allAllowed : List Call → Query → Graph → Bool
  | [], _, _ => true
  | c :: l, q, g =>
    c.allowed q &&
      match c.perform q g with
      | (some q, g) => allAllowed l q g
      | (none, _) => true

/-! ## The invariant -/

theorem prepared_applyStrategies {q : Query} (h : q.applyStrategies.2.failure = none) :
    q.applyStrategies.1.prepared := by
  rw [Query.applyStrategies] at h ⊢
  by_cases hprepared : q.prepared
  · rw [if_pos hprepared]
    exact hprepared
  · rw [if_neg hprepared] at h ⊢
    exact Option.isNone_iff_eq_none.2 h

structure Guarded (q : Query) : Prop where
  checked : Strategy.readOnly ∈ q.strategies.members
  criteria : ∀ s ∈ q.strategies.members, ∀ c ∈ s.behaviour.criteria, c.ReadOnly
  isSealed : q.traversal.pipeline.Sealed
  prepared : q.prepared → q.traversal.pipeline.ReadOnly
  running : ∀ {flow}, q.progress = .running flow → q.prepared

namespace Guarded

variable {q : Query} (hq : q.Guarded) (g : Graph)

include hq

theorem extend {q' : Query} {clauses : List Clause} (h : q.extend clauses = .ok q')
    (ha : (Call.extend clauses).allowed q) (hl : ∀ l ∈ Clause.allLambdas clauses, l.ReadOnly) :
    q'.Guarded := by
  obtain ⟨t, ht, rfl⟩ := Except.exists_of_map h
  refine ⟨hq.checked, hq.criteria, ?_, fun (hprepared : q.prepared) => ?_, hq.running⟩
  · exact Clause.extendAll_everywhere (.isSealed true) clauses (fun _ => rfl) hl hq.isSealed ht
  · have hwrites : Clause.anyWrites clauses → false := by
      simpa [Call.allowed, hprepared] using ha
    exact Clause.extendAll_everywhere .keepsGraph clauses hwrites hl (hq.prepared hprepared) ht

theorem applyStrategies : q.applyStrategies.1.Guarded := by
  rw [Query.applyStrategies]
  by_cases hprepared : q.prepared
  · rw [if_pos hprepared]
    exact hq
  · rw [if_neg hprepared]
    have hsealed := Strategy.applyAll_everywhere (.isSealed false)
      (fun s hs c hc => (hq.criteria s hs c hc).filter_isSealed _) hq.isSealed
    refine ⟨hq.checked, hq.criteria, hsealed, fun h => ?_,
      fun h => absurd (hq.running h) hprepared⟩
    exact Strategy.applyAll_readOnly hq.checked hq.criteria hq.isSealed (Option.isNone_iff_eq_none.1 h)

theorem prepare : q.prepare.1.Guarded := by
  rw [Query.prepare]
  split
  · exact ⟨hq.checked, hq.criteria, hq.isSealed, hq.prepared, fun h => by cases h⟩
  · have happlied := hq.applyStrategies
    dsimp only
    split
    · exact ⟨happlied.checked, happlied.criteria, happlied.isSealed, happlied.prepared,
        fun h => by cases h⟩
    · rename_i hnone
      exact ⟨happlied.checked, happlied.criteria, happlied.isSealed, happlied.prepared,
        fun _ => prepared_applyStrategies hnone⟩

theorem advance : (q.advance g).query.Guarded ∧ (q.advance g).graph = g := by
  rw [Query.advance]
  split
  case h_1 flow hrunning =>
    have hpulled := (hq.prepared (hq.running hrunning)).pull flow g
    have hgraph := (hq.prepared (hq.running hrunning)).graph_pull flow g
    have hquery (progress : Progress) : ({ q.withPipeline { q.traversal.pipeline with
        steps := (flow.pull q.traversal.pipeline.machine q.traversal.pipeline.steps g).steps } with
        progress } : Query).Guarded :=
      ⟨hq.checked, hq.criteria, hpulled.isSealed, fun _ => hpulled, fun _ => hq.running hrunning⟩
    dsimp only
    split
    · exact ⟨hquery _, hgraph⟩
    · exact ⟨hquery _, hgraph⟩
  case h_2 => exact ⟨hq, rfl⟩

theorem pull : (q.pull g).query.Guarded ∧ (q.pull g).graph = g := by
  rw [Query.pull]
  split
  · have hprepared := hq.prepare
    cases h : q.prepare with
    | mk q' fault =>
      rw [h] at hprepared
      cases fault with
      | some e => exact ⟨hprepared, rfl⟩
      | none => exact hprepared.advance g
  · exact hq.advance g

theorem withPeeked (peeked : Option Value) : ({ q with peeked } : Query).Guarded :=
  ⟨hq.checked, hq.criteria, hq.isSealed, hq.prepared, hq.running⟩

theorem next : (q.next g).query.Guarded ∧ (q.next g).graph = g := by
  rw [Query.next]
  split
  · exact ⟨hq.withPeeked none, rfl⟩
  · exact hq.pull g

theorem hasNext : (q.hasNext g).query.Guarded ∧ (q.hasNext g).graph = g := by
  obtain ⟨hpulled, hgraph⟩ := hq.pull g
  rw [Query.hasNext]
  split
  · exact ⟨hq, rfl⟩
  · dsimp only
    split
    · exact ⟨hpulled.withPeeked _, hgraph⟩
    · exact ⟨hpulled, hgraph⟩
    · exact ⟨hpulled, hgraph⟩

theorem graph_drainRun : (q.drainRun g).2 = g := by
  rw [Query.drainRun]
  split
  case h_1 flow hrunning =>
    exact (hq.prepared (hq.running hrunning)).graph_allRemaining flow g
  case h_2 => rfl

theorem graph_drain : (q.drain g).2 = g := by
  rw [Query.drain]
  split
  · have hprepared := hq.prepare
    cases h : q.prepare with
    | mk q' fault =>
      rw [h] at hprepared
      cases fault with
      | some e => rfl
      | none => exact hprepared.graph_drainRun g
  · exact hq.graph_drainRun g

/-- A call keeps the invariant and the graph. -/
theorem perform {c : Call} (hc : c.allowed q) (hl : ∀ l ∈ c.lambdas, l.ReadOnly) :
    (∀ q', (c.perform q g).1 = some q' → q'.Guarded) ∧ (c.perform q g).2 = g := by
  cases c with
  | extend clauses =>
    refine ⟨?_, rfl⟩
    rintro _ ⟨⟩
    cases h : q.extend clauses with
    | error e => exact hq
    | ok q' => exact hq.extend h hc hl
  | applyStrategies =>
    refine ⟨?_, rfl⟩
    rintro _ ⟨⟩
    exact hq.applyStrategies
  | next =>
    refine ⟨?_, (hq.next g).2⟩
    rintro _ ⟨⟩
    exact (hq.next g).1
  | hasNext =>
    refine ⟨?_, (hq.hasNext g).2⟩
    rintro _ ⟨⟩
    exact (hq.hasNext g).1
  | toList | iterate =>
    refine ⟨?_, hq.graph_drain g⟩
    rintro _ ⟨⟩

/-- Calls one after another keep the graph. -/
theorem graph_performAll {calls : List Call} (ha : allAllowed calls q g)
    (hl : ∀ c ∈ calls, ∀ l ∈ c.lambdas, l.ReadOnly) :
    (performAll calls q g).2 = g := by
  induction calls generalizing q with
  | nil => rfl
  | cons c calls ih =>
    rw [allAllowed, Bool.and_eq_true] at ha
    obtain ⟨hcall, hcalls⟩ := List.forall_mem_cons.1 hl
    obtain ⟨hquery, hgraph⟩ := hq.perform g ha.1 hcall
    rw [performAll]
    have hrest := ha.2
    cases h : c.perform q g with
    | mk after g' =>
      rw [h] at hquery hgraph hrest
      obtain rfl : g' = g := hgraph
      cases after with
      | none => rfl
      | some q' => exact ih (hquery q' rfl) hrest hcalls

end Guarded

/-- The queries that a source with the check builds. -/
theorem guarded_of_build {src : Source} (hcheck : Strategy.readOnly ∈ src.strategies.members)
    (hcriteria : ∀ s ∈ src.strategies.members, ∀ c ∈ s.behaviour.criteria, c.ReadOnly)
    {clauses : List Clause} (hlambdas : ∀ l ∈ Clause.allLambdas clauses, l.ReadOnly) {q : Query}
    (h : src.build clauses = .ok q) : q.Guarded := by
  obtain ⟨t, ht, rfl⟩ := Except.exists_of_map h
  have hsealed : t.pipeline.Sealed := Clause.extendAll_everywhere (.isSealed true) clauses
    (fun _ => rfl) hlambdas (Pipeline.everywhere_nil _) ht
  refine ⟨hcheck, hcriteria, hsealed, fun h => ?_, fun h => ?_⟩
  · cases h
  · cases h

/-- A query from a source with the check never changes the graph, whatever calls are made on it, if the
criteria of the source write nothing, no lambda writes, and no step that writes is added once the
strategies have been applied. -/
theorem readOnly_keeps_graph {src : Source} (hcheck : Strategy.readOnly ∈ src.strategies.members)
    (hcriteria : ∀ s ∈ src.strategies.members, ∀ c ∈ s.behaviour.criteria, c.ReadOnly)
    {clauses : List Clause} (hclauses : ∀ l ∈ Clause.allLambdas clauses, l.ReadOnly) {q : Query}
    (hq : src.build clauses = .ok q) (g : Graph) {calls : List Call}
    (hcalls : ∀ c ∈ calls, ∀ l ∈ c.lambdas, l.ReadOnly) (hallowed : allAllowed calls q g) :
    (performAll calls q g).2 = g :=
  (guarded_of_build hcheck hcriteria hclauses hq).graph_performAll g hallowed hcalls

/-- A run over the people of a graph that is continued by builder calls while it is under way. -/
theorem readOnly_keeps_people :
    let person := Criterion.ofLabel "person"
    let isPerson : Lambda := ⟨"isPerson", { holds := fun g v => g.label? v = some "person" }⟩
    let src := Source.ofStrategies ⟨[.subgraph (some person) none, .readOnly]⟩
    let clauses : List Clause := [.vertices [], .chooseLambda isPerson [.label] [.id]]
    let more : List Clause := [.chooseLambda isPerson [] [.identity]]
    let calls : List Call := [.next, .extend more, .hasNext, .toList]
    Strategy.readOnly ∈ src.strategies.members ∧
      (∀ s ∈ src.strategies.members, ∀ c ∈ s.behaviour.criteria, c.ReadOnly) ∧
      (∀ l ∈ Clause.allLambdas clauses, l.ReadOnly) ∧ (∀ c ∈ calls, ∀ l ∈ c.lambdas, l.ReadOnly) ∧
      ∃ q, src.build clauses = .ok q ∧ allAllowed calls q .acquaintance ∧
        (q.next .acquaintance).value = some (.ok (.string "person")) ∧
        (performAll calls q .acquaintance).2 = .acquaintance := by
  intro person isPerson src clauses more calls
  have hcheck : Strategy.readOnly ∈ src.strategies.members := .tail _ (.head _)
  have hcriteria : ∀ s ∈ src.strategies.members, ∀ c ∈ s.behaviour.criteria, c.ReadOnly := by
    intro s hs c hc
    have hmember : s = .subgraph (some person) none ∨ s = .readOnly := by
      simpa [src, Source.ofStrategies] using hs
    rcases hmember with rfl | rfl
    · obtain rfl : c = person.pipeline := by
        simpa [Strategy.subgraph, Behaviour.criteria] using hc
      exact Criterion.readOnly_ofLabel "person"
    · simp [Strategy.readOnly, Behaviour.criteria] at hc
  have hperson : isPerson.ReadOnly := fun _ _ => rfl
  have hclauses : ∀ l ∈ Clause.allLambdas clauses, l.ReadOnly := by
    intro l hl
    rwa [show l = isPerson from List.mem_singleton.1 hl]
  have hcalls : ∀ c ∈ calls, ∀ l ∈ c.lambdas, l.ReadOnly := by
    simp [calls, more, Call.lambdas, Clause.allLambdas, Clause.lambdas, hperson]
  have hbuilt : src.build clauses = .ok _ := rfl
  exact ⟨hcheck, hcriteria, hclauses, hcalls, _, hbuilt, by decide, by decide,
    readOnly_keeps_graph hcheck hcriteria hclauses hbuilt _ hcalls (by decide)⟩

/-- What the check does not see: a criterion that drops what it is asked about, a step that is added
after the check, and a lambda that adds a vertex for every input. -/
theorem readOnly_overlooks :
    let dropping := Traversal.start.drop.criterion
    let growing : Lambda :=
      ⟨"growing", { holds := fun _ _ => true, leaves := fun g _ => (g.addVertex "person").2 }⟩
    Graph.acquaintance.vertexIds = [⟨1⟩, ⟨2⟩] ∧
    (∃ src q, (Source.standard.withStrategy (.subgraph (some dropping) none)).bind
        (·.withStrategy .readOnly) = .ok src ∧
      src.build [.vertices []] = .ok q ∧
      (performAll [.iterate] q .acquaintance).2.vertexIds = []) ∧
    (∃ src q, Source.standard.withStrategy .readOnly = .ok src ∧
      src.build [.vertices []] = .ok q ∧
      (performAll [.applyStrategies, .extend [.drop], .iterate] q .acquaintance).2.vertexIds = []) ∧
    (∃ src q, Source.standard.withStrategy .readOnly = .ok src ∧
      src.build [.vertices [], .chooseLambda growing [] []] = .ok q ∧
      (performAll [.iterate] q .acquaintance).2.vertexIds = [⟨1⟩, ⟨2⟩, ⟨4⟩, ⟨5⟩]) :=
  ⟨by decide, ⟨_, _, rfl, rfl, by decide⟩, ⟨_, _, rfl, rfl, by decide⟩, ⟨_, _, rfl, rfl, by decide⟩⟩

end Query

end GraphTraversal
