import GraphTraversal.Proofs.Run.Results

/-! # What runs deliver

A run changes the steps and the stages as it goes, and it may stop at any result.  If its steps are
acts, which stay what they are, then the cells have at each moment a list of results left to deliver: a
run hands over a first part of that list, as far as the consumer wants, and leaves the rest.
-/

namespace GraphTraversal

variable {α : Type}

/-- The machine of acts: they stay what they are and leave the graph alone. -/
def Act.machine : Machine Act :=
  ⟨Act.kind, fun x v g => ⟨x.expand v, x, g⟩, fun x l g => ⟨x.release l, x, g⟩⟩

/-- What cells, given from the last to the first, still have to deliver. -/
def remaining : List (Cell Act) → List Value → Results
  | [], source => Results.ofValues source
  | x :: before, source =>
    Results.ofValues x.stage.buffer ++
      if x.stage.exhausted then []
      else
        match x.step.kind with
        | .expanding => Results.spread x.step.expand (remaining before source)
        | .limiting quota => Results.upTo (quota - x.stage.emitted) (remaining before source)
        | .gathering => Results.gather
            (fun l => x.step.release (x.stage.gathered.reverse ++ l)) (remaining before source)

section Delivering

variable {c : Consumer α}

/-! ## One cell -/

/-- A feed that went through a cell of `x` ended as the feed of the consumer behind it. -/
structure Ended (x : Act) (o : Reply (α × Cell Act)) (p : Reply α) : Prop where
  state : o.state.1 = p.state
  graph : o.graph = p.graph
  step : o.state.2.step = x

/-- What a cell passes on of one result, and what it keeps of it. -/
theorem expandInto_reply (r : Except Error Value) (a : α) (g : Graph) {x : Cell Act}
    (hb : x.stage.buffer = []) {p : Reply α × Results}
    (hp : feed c (Results.spread x.step.expand [r]) a g = p) :
    ∃ b, expandInto Act.machine c (a, x) g r =
        ⟨(p.1.state, ⟨x.step, { x.stage with buffer := b }⟩), p.1.graph, p.1.more⟩ ∧
      p.2 = Results.ofValues b := by
  have hstage : { x.stage with buffer := [] } = x.stage := by rw [← hb]
  cases r with
  | error e =>
    rw [Results.spread, Results.spread, feed_one] at hp
    subst hp
    exact ⟨[], by simp [expandInto, hstage], rfl⟩
  | ok v =>
    simp only [Results.spread, List.append_nil] at hp
    cases hr : x.step.expand v with
    | error e =>
      rw [hr, Results.ofOutcome, feed_one] at hp
      subst hp
      exact ⟨[], by simp [expandInto, Act.machine, hr, hstage], rfl⟩
    | ok vs =>
      rw [hr] at hp
      have hoffer : ((offer c vs a g).1, Results.ofValues (offer c vs a g).2) = p :=
        (feed_ofValues vs a g).symm.trans hp
      subst hoffer
      exact ⟨(offer c vs a g).2, by simp [expandInto, Act.machine, hr], rfl⟩

theorem feed_expandInto (l : Results) {a : α} {g : Graph} {x : Cell Act}
    (hb : x.stage.buffer = []) {o : Reply (α × Cell Act) × Results}
    (ho : feed (expandInto Act.machine c) l (a, x) g = o) {p : Reply α × Results}
    (hp : feed c (Results.spread x.step.expand l) a g = p) :
    Ended x.step o.1 p.1 ∧ o.1.more = p.1.more ∧
      p.2 = Results.ofValues o.1.state.2.stage.buffer ++ Results.spread x.step.expand o.2 := by
  induction l generalizing a g x with
  | nil =>
    subst ho hp
    exact ⟨⟨rfl, rfl, rfl⟩, rfl, by simp [feed, Results.spread, Results.ofValues, hb]⟩
  | cons r l ih =>
    obtain ⟨b, hreply, hrest⟩ := expandInto_reply (c := c) r a g hb rfl
    rw [← List.singleton_append, Results.spread_append] at hp
    cases hmore : (feed c (Results.spread x.step.expand [r]) a g).1.more with
    | true =>
      rw [feed_append_of_more _ hmore] at hp
      rw [feed_cons_of_more _ (by rw [hreply]; exact hmore), hreply] at ho
      have hb' : b = [] := by
        simpa [feed_rest_of_more hmore, Results.ofValues] using hrest.symm
      exact ih (x := ⟨x.step, { x.stage with buffer := b }⟩) hb' ho hp
    | false =>
      rw [feed_append_of_enough _ hmore] at hp
      rw [feed_cons_of_enough _ (by rw [hreply]; exact hmore), hreply] at ho
      subst ho hp
      exact ⟨⟨rfl, rfl, rfl⟩, rfl, by rw [hrest]⟩

theorem feed_limitInto (quota : Nat) (l : Results) {a : α} {g : Graph} {x : Cell Act}
    (hq : x.stage.emitted < quota) (he : x.stage.exhausted = false)
    {o : Reply (α × Cell Act) × Results} (ho : feed (limitInto quota c) l (a, x) g = o)
    {p : Reply α × Results}
    (hp : feed c (Results.upTo (quota - x.stage.emitted) l) a g = p) :
    Ended x.step o.1 p.1 ∧ (o.1.more || o.1.state.2.stage.exhausted) = p.1.more ∧
      o.1.state.2.stage.buffer = x.stage.buffer ∧
      (p.1.more = false → p.2 = Results.upTo (quota - o.1.state.2.stage.emitted) o.2) := by
  induction l generalizing a g x with
  | nil =>
    rw [Results.upTo_nil] at hp
    subst ho hp
    exact ⟨⟨rfl, rfl, rfl⟩, rfl, rfl, by simp [feed]⟩
  | cons r l ih =>
    obtain ⟨k, hk⟩ : ∃ k, quota - x.stage.emitted = k + 1 := ⟨_, (Nat.succ_pred (by omega)).symm⟩
    rw [hk] at hp
    cases r with
    | error e =>
      rw [Results.upTo] at hp
      cases hmore : (c a g (.error e)).more with
      | true =>
        rw [feed_cons_of_more _ (by exact hmore)] at ho
        rw [feed_cons_of_more _ hmore, ← hk] at hp
        exact ih hq he ho hp
      | false =>
        rw [feed_cons_of_enough _ (by exact hmore)] at ho
        rw [feed_cons_of_enough _ hmore] at hp
        subst ho hp
        exact ⟨⟨rfl, rfl, rfl⟩, by simp [limitInto, hmore, he], rfl, by simp [limitInto, hk]⟩
    | ok v =>
      rw [Results.upTo] at hp
      cases hmore : (c a g (.ok v)).more with
      | true =>
        rw [feed_cons_of_more _ hmore] at hp
        by_cases hlast : quota ≤ x.stage.emitted + 1
        · have hreply : limitInto quota c (a, x) g (.ok v) = ⟨((c a g (.ok v)).state,
              { x with stage :=
                { x.stage with emitted := x.stage.emitted + 1, exhausted := true } }),
              (c a g (.ok v)).graph, false⟩ := by
            simp [limitInto, hmore, hlast]
          have hk0 : k = 0 := by omega
          rw [feed_cons_of_enough _ (by rw [hreply]), hreply] at ho
          rw [hk0, Results.upTo] at hp
          subst ho hp
          exact ⟨⟨rfl, rfl, rfl⟩, rfl, rfl, by simp [feed]⟩
        · have hreply : limitInto quota c (a, x) g (.ok v) = ⟨((c a g (.ok v)).state,
              { x with stage := { x.stage with emitted := x.stage.emitted + 1 } }),
              (c a g (.ok v)).graph, true⟩ := by
            simp [limitInto, hmore, hlast]
          have hk' : quota - (x.stage.emitted + 1) = k := by omega
          rw [feed_cons_of_more _ (by rw [hreply]), hreply] at ho
          rw [← hk'] at hp
          exact ih (x := ⟨x.step, { x.stage with emitted := x.stage.emitted + 1 }⟩)
            (Nat.lt_of_not_le hlast) he ho hp
      | false =>
        have hreply : limitInto quota c (a, x) g (.ok v) = ⟨((c a g (.ok v)).state,
            { x with stage := { x.stage with emitted := x.stage.emitted + 1 } }),
            (c a g (.ok v)).graph, false⟩ := by
          simp [limitInto, hmore]
        rw [feed_cons_of_enough _ (by rw [hreply]), hreply] at ho
        rw [feed_cons_of_enough _ hmore] at hp
        subst ho hp
        have hk' : quota - (x.stage.emitted + 1) = k := by omega
        exact ⟨⟨rfl, rfl, rfl⟩, by simp [hmore, he], rfl, by simp [hk']⟩

theorem feed_gatherInto (l : Results) {a : α} {g : Graph} {x : Cell Act}
    {o : Reply (α × Cell Act) × Results} (ho : feed (gatherInto c) l (a, x) g = o)
    {p : Reply α × Results} (hp : feed c (Results.errors l) a g = p) :
    Ended x.step o.1 p.1 ∧ o.1.more = p.1.more ∧
      o.1.state.2.stage.buffer = x.stage.buffer ∧
      o.1.state.2.stage.exhausted = x.stage.exhausted ∧
      o.1.state.2.stage.gathered.reverse ++ Results.values o.2 =
        x.stage.gathered.reverse ++ Results.values l ∧
      p.2 = Results.errors o.2 := by
  induction l generalizing a g x with
  | nil =>
    subst ho hp
    exact ⟨⟨rfl, rfl, rfl⟩, rfl, rfl, rfl, rfl, rfl⟩
  | cons r l ih =>
    cases r with
    | error e =>
      rw [Results.errors] at hp
      cases hmore : (c a g (.error e)).more with
      | true =>
        rw [feed_cons_of_more _ (by exact hmore)] at ho
        rw [feed_cons_of_more _ hmore] at hp
        exact ih ho hp
      | false =>
        rw [feed_cons_of_enough _ (by exact hmore)] at ho
        rw [feed_cons_of_enough _ hmore] at hp
        subst ho hp
        exact ⟨⟨rfl, rfl, rfl⟩, rfl, rfl, rfl, rfl, rfl⟩
    | ok v =>
      rw [feed_cons_of_more _ (by rfl)] at ho
      obtain ⟨hended, hmore, hbuffer, hexhausted, hvalues, hrest⟩ :=
        ih (x := ⟨x.step, { x.stage with gathered := v :: x.stage.gathered }⟩) ho hp
      exact ⟨hended, hmore, hbuffer, hexhausted, by simpa [Results.values] using hvalues, hrest⟩

theorem Ended.reply_eq {x : Act} {o : Reply (α × Cell Act)} {p : Reply α} (h : Ended x o p)
    {more : Bool} (hmore : more = p.more) : (⟨o.state.1, o.graph, more⟩ : Reply α) = p := by
  rw [h.state, h.graph, hmore]

theorem expanding_rest {l : Results} {a : α} {g : Graph} {x : Cell Act}
    (hb : x.stage.buffer = []) (hkind : x.step.kind = .expanding) {o : Reply (α × Cell Act)}
    {ys : List (Cell Act)} {source : List Value}
    (ho : feed (expandInto Act.machine c) l (a, x) g = (o, remaining ys source))
    {p : Reply α × Results} (hp : feed c (Results.spread x.step.expand l) a g = p) :
    (⟨o.state.1, o.graph, o.more⟩ : Reply α) = p.1 ∧
      remaining (⟨o.state.2.step, { o.state.2.stage with exhausted := o.more }⟩ :: ys) source =
        p.2 := by
  obtain ⟨hended, hmore, hrest⟩ := feed_expandInto l hb ho hp
  refine ⟨hended.reply_eq hmore, ?_⟩
  dsimp only at hmore hrest
  rw [remaining, hended.step, hkind, hrest]
  cases hm : o.more with
  | true =>
    have hnil : p.2 = [] := by
      subst hp
      exact feed_rest_of_more (hmore.symm.trans hm)
    rw [hrest, List.append_eq_nil_iff] at hnil
    rw [hnil.1, hnil.2]
    rfl
  | false => rfl

theorem limiting_rest {quota : Nat} {l : Results} {a : α} {g : Graph} {x : Cell Act}
    (hb : x.stage.buffer = []) (hq : x.stage.emitted < quota) (he : x.stage.exhausted = false)
    (hkind : x.step.kind = .limiting quota) {o : Reply (α × Cell Act)} {ys : List (Cell Act)}
    {source : List Value}
    (ho : feed (limitInto quota c) l (a, x) g = (o, remaining ys source)) {p : Reply α × Results}
    (hp : feed c (Results.upTo (quota - x.stage.emitted) l) a g = p) :
    (⟨o.state.1, o.graph, o.more || o.state.2.stage.exhausted⟩ : Reply α) = p.1 ∧
      remaining (⟨o.state.2.step, { o.state.2.stage with
        exhausted := o.more || o.state.2.stage.exhausted }⟩ :: ys) source = p.2 := by
  obtain ⟨hended, hmore, hbuffer, hrest⟩ := feed_limitInto quota l hq he ho hp
  refine ⟨hended.reply_eq hmore, ?_⟩
  dsimp only at hmore hbuffer
  rw [remaining, hended.step, hkind, hbuffer, hb, hmore]
  cases hm : p.1.more with
  | true =>
    subst hp
    exact (feed_rest_of_more hm).symm
  | false => exact (hrest hm).symm

/-- A barrier whose inputs have not ended keeps them; else what it makes of them comes next. -/
theorem gathering_rest {l : Results} {a : α} {g : Graph} {x : Cell Act}
    (hb : x.stage.buffer = []) (he : x.stage.exhausted = false)
    (hkind : x.step.kind = .gathering) {o : Reply (α × Cell Act)} {ys : List (Cell Act)}
    {source : List Value} (ho : feed (gatherInto c) l (a, x) g = (o, remaining ys source))
    {p : Reply α × Results} (hp : feed c (Results.gather
      (fun l => x.step.release (x.stage.gathered.reverse ++ l)) l) a g = p) :
    (o.more = false → (⟨o.state.1, o.graph, false⟩ : Reply α) = p.1 ∧
        remaining (o.state.2 :: ys) source = p.2) ∧
      (o.more = true → o.state.2.step = x.step ∧ o.state.2.stage.buffer = [] ∧
        feed c (Results.ofOutcome
          (x.step.release o.state.2.stage.gathered.reverse)) o.state.1 o.graph = p) := by
  obtain ⟨hended, hmore, hbuffer, hexhausted, hvalues, hrest⟩ := feed_gatherInto l ho rfl
  constructor
  · intro hm
    rw [Results.gather, feed_append_of_enough _ (hmore.symm.trans hm)] at hp
    subst hp
    refine ⟨hended.reply_eq (hm.symm.trans hmore), ?_⟩
    rw [remaining, hended.step, hkind, hbuffer, hb, hexhausted, he, hrest]
    simp [Results.gather, Results.ofValues, ← hvalues]
  · intro hm
    have hnil : remaining ys source = [] := by
      have h := feed_rest_of_more (c := gatherInto c) (l := l) (a := (a, x)) (g := g)
        (by rw [ho]; exact hm)
      rwa [ho] at h
    rw [Results.gather, feed_append_of_more _ (hmore.symm.trans hm), ← hended.state,
      ← hended.graph, ← hvalues, hnil] at hp
    exact ⟨hended.step, hbuffer.trans hb, by simpa [Results.values] using hp⟩

/-! ## All cells -/

/-- A run hands over what its cells have to deliver, as far as the consumer wants, and the cells are
left with the rest. -/
theorem run_delivers (xs : List (Cell Act)) (source : List Value) {α : Type} (c : Consumer α)
    (a : α) (g : Graph) :
    ((run Act.machine xs source c a g).reply,
        remaining (run Act.machine xs source c a g).cells (run Act.machine xs source c a g).source) =
      feed c (remaining xs source) a g := by
  induction xs generalizing α c a g with
  | nil =>
    rw [remaining, feed_ofValues]
    rfl
  | cons x before ih =>
    rcases x with ⟨x, held, gathered, emitted, exhausted⟩
    have hoffer := feed_ofValues (c := c) held a g
    simp only [run, remaining]
    generalize offer c held a g = o at hoffer ⊢
    rcases o with ⟨⟨b, g', more⟩, buffer⟩
    dsimp only at hoffer ⊢
    cases more with
    | false =>
      rw [feed_append_of_enough _ (by rw [hoffer]), hoffer]
      rfl
    | true =>
      obtain rfl : buffer = [] := by
        have hrest := feed_rest_of_more (c := c) (l := Results.ofValues held) (a := a) (g := g)
          (by rw [hoffer])
        rw [hoffer] at hrest
        simpa [Results.ofValues] using hrest
      rw [feed_append_of_more _ (by rw [hoffer]), hoffer]
      cases exhausted with
      | true => rfl
      | false =>
        simp only [Bool.not_true, Bool.or_self, Bool.false_eq_true, if_false]
        cases hkind : x.kind with
        | expanding =>
          have hmachine : Act.machine.kind x = .expanding := hkind
          rw [hmachine]
          obtain ⟨hreply, hrest⟩ := expanding_rest (x := ⟨x, [], gathered, emitted, false⟩) rfl hkind
            (ih (expandInto Act.machine c) (b, ⟨x, [], gathered, emitted, false⟩) g').symm rfl
          exact Prod.ext hreply hrest
        | limiting quota =>
          have hmachine : Act.machine.kind x = .limiting quota := hkind
          rw [hmachine]
          dsimp only
          split
          · rename_i hmet
            rw [Nat.sub_eq_zero_of_le hmet, Results.upTo]
            rfl
          · rename_i hopen
            obtain ⟨hreply, hrest⟩ := limiting_rest (x := ⟨x, [], gathered, emitted, false⟩) rfl
              (Nat.lt_of_not_le hopen) rfl hkind
              (ih (limitInto quota c) (b, ⟨x, [], gathered, emitted, false⟩) g').symm rfl
            exact Prod.ext hreply hrest
        | gathering =>
          have hmachine : Act.machine.kind x = .gathering := hkind
          rw [hmachine]
          dsimp only
          have hrun := gathering_rest (x := ⟨x, [], gathered, emitted, false⟩) rfl rfl hkind
            (ih (gatherInto c) (b, ⟨x, [], gathered, emitted, false⟩) g').symm rfl
          generalize run Act.machine before source (gatherInto c) _ g' = o at hrun ⊢
          cases hmore : o.reply.more with
          | false =>
            obtain ⟨hreply, hrest⟩ := hrun.1 hmore
            exact Prod.ext hreply hrest
          | true =>
            obtain ⟨hstep, hbuffer, hfeed⟩ := hrun.2 hmore
            change _ = feed c (Results.gather (fun l => x.release (gathered.reverse ++ l)) _) b g'
            rw [← hfeed, hstep]
            simp only [Bool.not_true, Bool.false_eq_true, if_false, Act.machine]
            cases x.release o.reply.state.2.stage.gathered.reverse with
            | error e =>
              rw [Results.ofOutcome, feed_one, hbuffer]
              rfl
            | ok l =>
              rw [Results.ofOutcome]
              exact ((feed_ofValues l _ _).trans (by simp [remaining])).symm

end Delivering

/-! ## Pulls -/

theorem remaining_fresh (acts : List Act) (seeds : List Value) :
    remaining (acts.map fun x => ⟨x, .fresh⟩) seeds =
      Act.applyAll acts.reverse (Results.ofValues seeds) := by
  induction acts with
  | nil => rfl
  | cons x acts ih =>
    rw [List.reverse_cons, Act.applyAll_append, ← ih]
    rfl

/-- A run that has not begun has everything left that the acts make of the seeds. -/
theorem remaining_start (acts : List Act) (seeds : List Value) :
    remaining (cells acts (Flow.start seeds acts.length).stages) seeds =
      Act.applyAll acts (Results.ofValues seeds) := by
  have hcells : cells acts (Flow.start seeds acts.length).stages =
      acts.reverse.map fun x => ⟨x, .fresh⟩ := by
    rw [cells, Flow.start, List.length_replicate, Nat.sub_self, List.replicate_zero,
      List.append_nil, List.map_reverse]
    congr 1
    induction acts with
    | nil => rfl
    | cons x acts ih => exact congr_arg (_ :: ·) ih
  rw [hcells, remaining_fresh, List.reverse_reverse]

theorem feed_takeOne (l : Results) (g : Graph) :
    (feed takeOne l none g).1.state = l.head? ∧ (feed takeOne l none g).1.graph = g ∧
      (feed takeOne l none g).2 = l.tail := by
  cases l with
  | nil => exact ⟨rfl, rfl, rfl⟩
  | cons r l => exact ⟨rfl, rfl, rfl⟩

theorem feed_takeAll (l : Results) (found : List Value) (g : Graph) :
    taken (feed takeAll l (found, none) g).1.state = l.collect.map (found.reverse ++ ·) ∧
      (feed takeAll l (found, none) g).1.graph = g := by
  induction l generalizing found with
  | nil => exact ⟨by simp [feed, taken, Results.collect, Except.map], rfl⟩
  | cons r l ih =>
    cases r with
    | error e => exact ⟨rfl, rfl⟩
    | ok v =>
      rw [feed_cons_of_more _ (by rfl), Results.collect]
      obtain ⟨htaken, hgraph⟩ := ih (v :: found)
      refine ⟨htaken.trans ?_, hgraph⟩
      cases Results.collect l with
      | error e => rfl
      | ok vs => simp [Except.map]

/-- A pull brings the first result that is left, and leaves the others. -/
theorem pull_acts (acts : List Act) (flow : Flow) (g : Graph) {p : Pull Act}
    (hp : flow.pull Act.machine acts g = p) {l : Results}
    (hl : remaining (cells acts flow.stages) flow.source = l) :
    p.result = l.head? ∧ remaining (cells p.steps p.flow.stages) p.flow.source = l.tail ∧
      p.graph = g := by
  subst hp hl
  have hrun := run_delivers (cells acts flow.stages) flow.source takeOne none g
  obtain ⟨hstate, hgraph, hrest⟩ := feed_takeOne (remaining (cells acts flow.stages) flow.source) g
  rw [← hrun] at hstate hgraph hrest
  refine ⟨hstate, ?_, hgraph⟩
  rw [← hrest]
  exact congr_arg (remaining · _) (cells_reverse _)

theorem firstResult_acts (acts : List Act) (v : Value) (g : Graph) :
    (firstResult Act.machine acts v g).result = (Act.applyAll acts [.ok v]).first := by
  obtain ⟨hresult, -, -⟩ := pull_acts acts (.start [v] acts.length) g rfl
    (remaining_start acts [v])
  rw [firstResult, hresult]
  change _ = (Act.applyAll acts (Results.ofValues [v])).first
  rcases Act.applyAll acts (Results.ofValues [v]) with _ | ⟨_ | _, _⟩ <;> rfl

theorem allResults_acts (acts : List Act) (v : Value) (g : Graph) :
    (allResults Act.machine acts v g).result = (Act.applyAll acts [.ok v]).collect := by
  have hrun := run_delivers (cells acts (Flow.start [v] acts.length).stages) [v] takeAll ([], none) g
  rw [remaining_start] at hrun
  obtain ⟨htaken, -⟩ := feed_takeAll (Act.applyAll acts (Results.ofValues [v])) [] g
  rw [← hrun] at htaken
  apply htaken.trans
  change _ = (Act.applyAll acts (Results.ofValues [v])).collect
  cases (Act.applyAll acts (Results.ofValues [v])).collect <;> rfl

end GraphTraversal
