import GraphTraversal.Proofs.Step.Demand
import GraphTraversal.Proofs.Step.Keys
import GraphTraversal.Proofs.Step.Streams

/-! # What a failing input costs

An input that fails in a step of its own costs one result: its error stands among the results, and all
the others are what they are without that input.  Barriers pass on such errors and keep the inputs that
they have.  But when a barrier works out the key of an input and fails, the inputs it has gathered are
gone, those with it and those that would not have failed.
-/

namespace GraphTraversal

/-! ## Results with one more error -/

namespace Results

theorem values_append (l l' : Results) : values (l ++ l') = values l ++ values l' := by
  induction l with
  | nil => rfl
  | cons r l ih => cases r <;> simp [values, ih]

theorem errors_append (l l' : Results) : errors (l ++ l') = errors l ++ errors l' := by
  induction l with
  | nil => rfl
  | cons r l ih => cases r <;> simp [errors, ih]

theorem values_ofValues (l : List Value) : values (ofValues l) = l := by
  induction l with
  | nil => rfl
  | cons v l ih => exact congr_arg (v :: ·) ih

/-- The values that a step makes of its inputs depend on their values only. -/
theorem values_spread (f : Value → Except Error (List Value)) (l : Results) :
    values (spread f l) = (values l).flatMap fun v => values (ofOutcome (f v)) := by
  induction l with
  | nil => rfl
  | cons r l ih =>
    cases r with
    | ok v => rw [spread, values_append, ih, values, List.flatMap_cons]
    | error e => exact ih

theorem values_errors (l : Results) : values (errors l) = [] := by
  induction l with
  | nil => rfl
  | cons r l ih => cases r <;> exact ih

theorem values_gather (f : List Value → Except Error (List Value)) (l : Results) :
    values (gather f l) = values (ofOutcome (f (values l))) := by
  rw [gather, values_append, values_errors, List.nil_append]

/-- The second results are the first with one error more. -/
def WithError (e : Error) (l l' : Results) : Prop := ∃ a b, l = a ++ b ∧ l' = a ++ .error e :: b

theorem WithError.values_eq {e : Error} {l l' : Results} (h : WithError e l l') : l'.values = l.values := by
  obtain ⟨a, b, rfl, rfl⟩ := h
  rw [values_append, values_append]
  rfl

theorem WithError.spread {e : Error} {l l' : Results} (h : WithError e l l')
    (f : Value → Except Error (List Value)) : WithError e (spread f l) (spread f l') := by
  obtain ⟨a, b, rfl, rfl⟩ := h
  exact ⟨Results.spread f a, Results.spread f b, spread_append f a b, spread_append f a (.error e :: b)⟩

theorem WithError.gather {e : Error} {l l' : Results} (h : WithError e l l')
    (f : List Value → Except Error (List Value)) : WithError e (gather f l) (gather f l') := by
  have hvalues := h.values_eq
  obtain ⟨a, b, rfl, rfl⟩ := h
  refine ⟨errors a, errors b ++ ofOutcome (f (values (a ++ b))), ?_, ?_⟩
  · rw [Results.gather, errors_append, List.append_assoc]
  · rw [Results.gather, errors_append, hvalues, List.append_assoc]
    rfl

end Results

/-! ## Steps in a row -/

/-- Draining is deterministic. -/
theorem Drains.unique {S : Type} {p : Producer S} {s : S} {g g₁ g₂ : Graph} {l₁ l₂ : Results}
    (h₁ : Drains p s g l₁ g₁) (h₂ : Drains p s g l₂ g₂) : l₁ = l₂ ∧ g₁ = g₂ := by
  induction h₁ generalizing l₂ with
  | done hnone =>
    cases h₂ with
    | done => exact ⟨rfl, rfl⟩
    | next hsome => cases hnone.symm.trans hsome
  | next hsome _ ih =>
    cases h₂ with
    | done hnone => cases hsome.symm.trans hnone
    | next hsome' rest =>
      cases hsome.symm.trans hsome'
      obtain ⟨rfl, rfl⟩ := ih rest
      exact ⟨rfl, rfl⟩

namespace Step

variable {g : Graph}

def streams (g : Graph) (steps : List Step) (l : Results) : Results :=
  steps.foldl (fun l s => s.stream g l) l

theorem streams_append (steps later : List Step) (l : Results) :
    streams g (steps ++ later) l = streams g later (streams g steps l) :=
  List.foldl_append

/-- A pull on steps that act as acts takes the first of what the cells of the acts have left. -/
theorem producer_acts {steps : List Step} {acts : List Act}
    (h : List.Forall₂ (ActsAs machine g) steps acts) (flow : Flow) {l : Results}
    (hl : remaining (cells acts flow.stages) flow.source = l) {d : Draw (List Step × Flow)}
    (hd : producer (steps, flow) g = d) :
    d.result = l.head? ∧ d.graph = g ∧ ∃ acts', List.Forall₂ (ActsAs machine g) d.state.1 acts' ∧
      remaining (cells acts' d.state.2.stages) d.state.2.source = l.tail := by
  subst hd
  have hlayer : List.Forall₂ (fun s x => s.height ≤ heights steps ∧ ActsAs machine g s x) steps acts :=
    (List.forall₂_and_left _ _).2 ⟨heights_le_iff.1 le_rfl, h⟩
  obtain ⟨hresult, hsteps, hflow, -, hgraph⟩ := pull_agree machine_layered.acts hlayer flow rfl
  obtain ⟨hhead, htail, -⟩ := pull_acts acts flow g rfl hl
  refine ⟨(eq_of_rel_eqUpTo hresult).trans hhead, hgraph, _, hsteps.imp fun _ _ hx => hx.2, ?_⟩
  rw [← htail, ← hflow]
  rfl

/-- Steps that act as acts deliver, when they are drained, what the cells of the acts have left. -/
theorem drains_remaining {steps : List Step} {acts : List Act}
    (h : List.Forall₂ (ActsAs machine g) steps acts) (flow : Flow) {l : Results}
    (hl : remaining (cells acts flow.stages) flow.source = l) :
    Drains producer (steps, flow) g l g := by
  induction l generalizing steps acts flow with
  | nil =>
    obtain ⟨hnone, hgraph, -⟩ := producer_acts h flow hl rfl
    have hdone := Drains.done hnone
    rwa [hgraph] at hdone
  | cons r l ih =>
    obtain ⟨hsome, hgraph, acts', hacts, hrest⟩ := producer_acts h flow hl rfl
    refine .next hsome ?_
    rw [hgraph]
    exact ih hacts _ hrest

/-- Read-only steps, drained, deliver what the steps make of the seeds one after another. -/
theorem drains_streams {steps : List Step} (h : ∀ s ∈ steps, s.ReadOnly) {seeds : List Value}
    {l : Results} (hl : streams g steps (.ofValues seeds) = l) :
    Drains producer (steps, .start seeds steps.length) g l g := by
  let p : Pipeline := { steps }
  refine drains_remaining (p.actsAs_acts (Pipeline.everywhere_iff.2 h)) _ ?_
  have hstart := remaining_start (p.steps.map (·.actOn machine g)) seeds
  rw [List.length_map] at hstart
  exact hstart.trans ((p.stream_eq g seeds).symm.trans hl)

/-! ## An input that fails -/

/-- What comes of one input by itself.  A barrier works on a batch of one. -/
def alone (s : Step) (v : Value) (g : Graph) : Except Error (List Value) :=
  if s.isBarrier then (s.release [v] g).result else (s.expand v g).result

theorem kind_of_not_barrier {s : Step} (hs : s.isBarrier = false) (hlimit : ∀ n, s ≠ .limit n) :
    s.kind = .expanding := by
  cases s with
  | limit n => exact absurd rfl (hlimit n)
  | count | groupCount | order => cases hs
  | _ => rfl

/-- Errors among the inputs of a step stay errors among its outputs. -/
theorem stream_withError {s : Step} (hlimit : ∀ n, s ≠ .limit n) {e : Error} {l l' : Results}
    (h : Results.WithError e l l') : Results.WithError e (s.stream g l) (s.stream g l') := by
  cases hs : s.isBarrier with
  | true =>
    simp only [stream, kind_of_isBarrier hs]
    exact h.gather _
  | false =>
    simp only [stream, kind_of_not_barrier hs hlimit]
    exact h.spread _

theorem streams_withError {steps : List Step} (hlimit : ∀ n, .limit n ∉ steps) {e : Error}
    {l l' : Results} (h : Results.WithError e l l') :
    Results.WithError e (streams g steps l) (streams g steps l') := by
  induction steps generalizing l l' with
  | nil => exact h
  | cons s later ih =>
    have hs : ∀ n, s ≠ .limit n := fun n hn => hlimit n (hn ▸ List.mem_cons_self)
    exact ih (fun n hn => hlimit n (List.mem_cons_of_mem s hn)) (stream_withError hs h)

theorem values_stream {s : Step} (hlimit : ∀ n, s ≠ .limit n) {l l' : Results}
    (h : l.values = l'.values) : (s.stream g l).values = (s.stream g l').values := by
  cases hs : s.isBarrier with
  | true =>
    simp only [stream, kind_of_isBarrier hs, Results.values_gather, h]
  | false =>
    simp only [stream, kind_of_not_barrier hs hlimit, Results.values_spread, h]

/-- What values steps without a limit deliver depends on the values that reach them only. -/
theorem values_streams {steps : List Step} (hlimit : ∀ n, .limit n ∉ steps) {l l' : Results}
    (h : l.values = l'.values) : (streams g steps l).values = (streams g steps l').values := by
  induction steps generalizing l l' with
  | nil => exact h
  | cons s later ih =>
    have hs : ∀ n, s ≠ .limit n := fun n hn => hlimit n (hn ▸ List.mem_cons_self)
    exact ih (fun n hn => hlimit n (List.mem_cons_of_mem s hn)) (values_stream hs h)

theorem ne_limit_of_fails {s : Step} {x : Value} {e : Error} (h : s.alone x g = .error e) (n : Nat) :
    s ≠ .limit n := by
  rintro rfl
  cases h

/-- Outside of barriers an input that fails leaves its error in its place. -/
theorem stream_of_fails {s : Step} (hs : s.isBarrier = false) {x : Value} {e : Error}
    (hfail : s.alone x g = .error e) (l₁ l₂ : Results) :
    Results.WithError e (s.stream g (l₁ ++ l₂)) (s.stream g (l₁ ++ .ok x :: l₂)) := by
  have hx : (s.expand x g).result = .error e := by simpa [alone, hs] using hfail
  simp only [stream, kind_of_not_barrier hs (ne_limit_of_fails hfail), Results.spread_append,
    Results.spread, hx]
  exact ⟨_, _, rfl, rfl⟩

/-- A barrier loses the whole batch. -/
theorem stream_barrier_of_fails {s : Step} (hread : s.ReadOnly) (hs : s.isBarrier = true) {x : Value}
    {e : Error} (hfail : s.alone x g = .error e) (l₁ l₂ : Results) :
    ∃ u y w e', (l₁ ++ .ok x :: l₂).values = u ++ y :: w ∧ (∀ v ∈ u, ∃ r, s.alone v g = .ok r) ∧
      s.alone y g = .error e' ∧
        s.stream g (l₁ ++ .ok x :: l₂) = (l₁ ++ l₂).errors ++ [.error e'] := by
  have halone (v : Value) : s.alone v g = (s.release [v] g).result := if_pos hs
  have hmem : x ∈ (l₁ ++ .ok x :: l₂).values := by simp [Results.values_append, Results.values]
  obtain ⟨u, y, w, e', hvalues, hu, hy, hrelease⟩ :=
    release_fails hread hs hmem ((halone x).symm.trans hfail)
  refine ⟨u, y, w, e', hvalues, fun v hv => by rw [halone]; exact hu v hv, (halone y).trans hy, ?_⟩
  simp only [stream, kind_of_isBarrier hs, Results.gather, hrelease, Results.errors_append]
  rfl

/-- What a failing input costs, in read-only steps without a limit behind it.

Let `x` be among the results that the steps `before` deliver, with `l₁` ahead of it and `l₂` behind it,
and let the step `s` fail on `x` alone.  Unless `s` is a barrier, the whole run delivers what it delivers
without `x`, with the error of `x` put somewhere among it; so the values are those that `s` and the later
steps make of the other inputs.  If `s` is a barrier that fails on the key of an input, then none of the
inputs contributes: the later steps get the errors that came before, and then the error of the first
input that fails. -/
theorem failing_input_costs {before later : List Step} {s : Step}
    (hread : ∀ t ∈ before ++ s :: later, t.ReadOnly) (hlimit : ∀ n, .limit n ∉ later) {seeds : List Value}
    {g g' : Graph} {l₁ l₂ : Results} {x : Value}
    (hreach : Drains producer (before, .start seeds before.length) g (l₁ ++ .ok x :: l₂) g') {e : Error}
    (hfail : s.alone x g = .error e) :
    ∃ r, Drains producer (before ++ s :: later, .start seeds (before ++ s :: later).length) g r g ∧
      (s.isBarrier = false → Results.WithError e (streams g (s :: later) (l₁ ++ l₂)) r ∧
        ∃ r', Drains producer (s :: later, .start (l₁ ++ l₂).values (s :: later).length) g r' g ∧
          r.values = r'.values) ∧
      (s.isBarrier = true → ∃ u y w e', (l₁ ++ .ok x :: l₂).values = u ++ y :: w ∧
        (∀ v ∈ u, ∃ r, s.alone v g = .ok r) ∧ s.alone y g = .error e' ∧
          r = streams g later ((l₁ ++ l₂).errors ++ [.error e'])) := by
  obtain ⟨hbefore, hs, hlater⟩ : (∀ t ∈ before, t.ReadOnly) ∧ s.ReadOnly ∧ ∀ t ∈ later, t.ReadOnly := by
    simpa [or_imp, forall_and] using hread
  obtain ⟨hreached, -⟩ := hreach.unique (drains_streams hbefore rfl)
  have hwhole : Drains producer (before ++ s :: later, .start seeds (before ++ s :: later).length) g
      (streams g (s :: later) (streams g before (.ofValues seeds))) g :=
    drains_streams hread (streams_append before (s :: later) _)
  rw [← hreached] at hwhole
  refine ⟨_, hwhole, fun hb => ?_, fun hb => ?_⟩
  · have herror : Results.WithError e (streams g (s :: later) (l₁ ++ l₂))
        (streams g (s :: later) (l₁ ++ .ok x :: l₂)) :=
      streams_withError hlimit (stream_of_fails hb hfail l₁ l₂)
    refine ⟨herror, _, drains_streams (List.forall_mem_cons.2 ⟨hs, hlater⟩) rfl, ?_⟩
    have hnone : ∀ n, .limit n ∉ s :: later := fun n hn =>
      (List.mem_cons.1 hn).elim (fun h => ne_limit_of_fails hfail n h.symm) (hlimit n)
    rw [herror.values_eq]
    exact values_streams hnone (Results.values_ofValues _).symm
  · obtain ⟨u, y, w, e', hvalues, hu, hy, hstream⟩ := stream_barrier_of_fails hs hb hfail l₁ l₂
    exact ⟨u, y, w, e', hvalues, hu, hy, congr_arg (streams g later) hstream⟩

/-- A projection that fails on one of three inputs leaves two to count. -/
theorem project_loses_one_input :
    let s : Step := .project ["friend"] (.ofList [{ steps := [.adjacent .outward []] }])
    let e : Error := .execution (.expectsVertex "adjacent" "string")
    ∃ r, Drains producer ([.identity, s, .count],
        .start [.vertex ⟨1⟩, .string "lop", .vertex ⟨2⟩] 3) .empty r .empty ∧
      Results.WithError e [.ok (.integer 2)] r := by
  intro s e
  have hreach : Drains producer ([.identity], .start [.vertex ⟨1⟩, .string "lop", .vertex ⟨2⟩] 1)
      .empty ([.ok (.vertex ⟨1⟩)] ++ .ok (.string "lop") :: [.ok (.vertex ⟨2⟩)]) .empty :=
    drains_streams (forall_readOnly_of_isPlain (by decide)) (by decide)
  have hread : ∀ t ∈ [.identity] ++ s :: [.count], t.ReadOnly :=
    forall_readOnly_of_isPlain (by decide)
  have hfail : s.alone (.string "lop") .empty = .error e := by decide
  obtain ⟨r, hr, hcosts, -⟩ := failing_input_costs hread (by simp) hreach hfail
  exact ⟨r, hr, (hcosts rfl).1⟩

/-- A `groupCount` whose key fails on the second vertex does not count the first one either. -/
theorem group_count_loses_all_inputs :
    let g := (((Graph.empty.addVertex "person").2.addVertex "person").2.addEdge ⟨1⟩ "knows" ⟨2⟩).2
    let choice : Decision := .selector { steps := [.adjacent .outward []] } []
      (some { steps := [.identity] })
    let s : Step := .groupCount (.ofList [{ steps := [.choose choice .unevaluated] }])
    let e : Error := .selection 0
    Drains producer ([.vertices []], .start [.null] 1) g
        [.ok (.vertex ⟨1⟩), .ok (.vertex ⟨2⟩)] g ∧
      s.alone (.vertex ⟨2⟩) g = .error e ∧
      Drains producer ([.vertices [], s], .start [.null] 2) g [.error e] g ∧
      Drains producer ([s], .start [.vertex ⟨1⟩] 1) g
        [.ok (.map [(.vertex ⟨1⟩, .integer 1)])] g := by
  intro g choice s e
  exact ⟨drains_streams (forall_readOnly_of_isPlain (by decide)) (by decide), by decide,
    drains_streams (forall_readOnly_of_isPlain (by decide)) (by decide),
    drains_streams (forall_readOnly_of_isPlain (by decide)) (by decide)⟩

end Step

end GraphTraversal
